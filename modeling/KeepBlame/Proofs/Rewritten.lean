import KeepBlame.Proofs.Calls
import KeepBlame.Proofs.Least
import KeepBlame.Proofs.Untouched

/-! Which files a failed run has rewritten. The run is followed with a log of every edit that was spliced into a file, from
which the disk it leaves can be made again. Each file that the failure reports stands in the log, unless the run stopped in
that file and its edit was turned down before anything was written. -/
namespace KeepBlame

@[simp]
def Outcome.error? {ε α : Type} : Outcome ε α → Option ε
  | ok _ => none
  | error cause => some cause
  | panic _ => none

theorem Outcome.mapError? {ε φ α : Type} (f : ε → φ) (outcome : Outcome ε α) :
    (outcome.mapError f).error? = outcome.error?.map f := by
  cases outcome <;> rfl

def EditError.Refuses : EditError → Prop
  | unknownEdit _ => True
  | outOfBounds _ _ => True
  | _ => False

theorem Stream.spliceBytes (s : Stream) (e : Edit) : (s.splice e).2.bytes = Edit.spliced s.bytes e := by
  by_cases inside : e.span.stop ≤ s.size
  · rw [(spliceInside inside).2, Edit.splicedIs inside, List.append_assoc]
  · have beyond : (Stream.mk s.bytes 0).size < e.span.stop := Nat.lt_of_not_le inside
    rw [Edit.spliced, spliceOutside beyond, spliceOutside (Nat.lt_of_not_le inside)]
    rfl

namespace EditSet

def spliced? (set : EditSet) (id : Span) (target : Stream) : Option Edit :=
  (set.get? id).filter (·.span.stop ≤ target.size)

def splices (set : EditSet) (target : Stream) : List Span → List Edit
  | [] => []
  | id :: rest =>
    (set.spliced? id target).toList ++
      match set.apply id target with
      | .made _ set target => splices set target rest
      | _ => []

theorem getFirst {set : EditSet} {id : Span} {e : Edit} (found : set.get? id = some e) :
    ∃ before p after, set.pending = before ++ p :: after ∧ (∀ q ∈ before, q.id ≠ p.id) ∧ p.id = id ∧ p.edit = e := by
  obtain ⟨p, here, rfl⟩ := Option.map_eq_some_iff.mp found
  obtain ⟨named, before, after, split, others⟩ := List.find?_eq_some_iff_append.mp here
  cases beq_iff_eq.mp named
  exact ⟨before, p, after, split, fun q mem => by simpa using others q mem, rfl, rfl⟩

theorem shiftAllWrites {delta : Int} {pending moved : List Pending} {e : EditError}
    (stuck : shiftAll delta pending = (moved, some e)) : ¬ e.Refuses := by
  rcases fitsOrStuck delta pending with fits | ⟨early, q, late, rfl, fits, barred⟩
  · rw [shiftAllFits fits] at stuck
    cases stuck
  · rw [shiftAllStuck fits barred] at stuck
    cases stuck
    exact id

theorem shiftAfterWrites (before after : List Pending) (delta : Int) (target : Stream) :
    (shiftAfter before after delta target).target = target ∧
      ∀ cause, (shiftAfter before after delta target).result = .error cause → ¬ cause.Refuses := by
  unfold shiftAfter
  split
  · exact ⟨rfl, by simp [Step.result]⟩
  · split
    · rename_i stuck
      refine ⟨rfl, ?_⟩
      rintro cause ⟨rfl⟩
      exact shiftAllWrites stuck
    · split <;> exact ⟨rfl, by simp [Step.result]⟩

section Call
variable {set : EditSet} {id : Span} {target : Stream}

theorem applySpliced {e : Edit} (spliced : set.spliced? id target = some e) :
    (set.apply id target).target.bytes = Edit.spliced target.bytes e ∧
      ∀ cause, (set.apply id target).result = .error cause → ¬ cause.Refuses := by
  obtain ⟨found, within⟩ := Option.filter_eq_some_iff.mp spliced
  obtain ⟨before, p, after, split, others, rfl, rfl⟩ := getFirst found
  have inside : p.edit.span.stop ≤ target.size := by simpa using within
  obtain ⟨kept, writes⟩ := shiftAfterWrites before after p.edit.delta (target.splice p.edit).2
  rw [applyInside split others inside, kept]
  exact ⟨Stream.spliceBytes target p.edit, writes⟩

theorem applyRefused (nothing : set.spliced? id target = none) :
    (set.apply id target).target.bytes = target.bytes ∧
      ∃ cause, (set.apply id target).result = .error cause ∧ cause.Refuses := by
  cases found : set.get? id with
  | none =>
    have absent : id ∉ set.ids := by
      intro known
      obtain ⟨p, mem, named⟩ := List.mem_map.mp known
      have missed := List.find?_eq_none.mp (Option.map_eq_none_iff.mp found) p mem
      simp [named] at missed
    rw [applyUnknown absent]
    exact ⟨rfl, _, rfl, trivial⟩
  | some e =>
    obtain ⟨before, p, after, split, others, rfl, rfl⟩ := getFirst found
    have beyond : target.size < p.edit.span.stop := by simpa [spliced?, found] using nothing
    rw [applyOutside split others beyond]
    exact ⟨rfl, _, rfl, trivial⟩

end Call

theorem applyIdsSpliced (set : EditSet) (target : Stream) (ids : List Span) :
    (Worksite.applyIds set target ids).target.bytes = (set.splices target ids).foldl Edit.spliced target.bytes := by
  induction ids generalizing set target with
  | nil => rfl
  | cons id rest ih =>
    have written : (set.apply id target).target.bytes =
        (set.spliced? id target).toList.foldl Edit.spliced target.bytes := by
      cases call : set.spliced? id target with
      | none => exact (applyRefused call).1
      | some e => exact (applySpliced call).1
    simp only [Worksite.applyIds, splices]
    rw [List.foldl_append, ← written]
    cases set.apply id target with
    | made delta next reached => exact ih _ _
    | refused cause next reached => rfl
    | panicked panic reached => rfl

theorem applyIdsNothing {set : EditSet} {target : Stream} {ids : List Span} (full : ids ≠ [])
    (nothing : set.splices target ids = []) :
    ∃ cause, (Worksite.applyIds set target ids).result = .error cause ∧ cause.Refuses := by
  obtain ⟨id, rest, rfl⟩ := List.exists_cons_of_ne_nil full
  have first : set.spliced? id target = none := by
    simpa using (List.append_eq_nil_iff.mp nothing).1
  obtain ⟨_, cause, refused, refuses⟩ := applyRefused first
  refine ⟨cause, ?_, refuses⟩
  simp only [Worksite.applyIds]
  generalize set.apply id target = step at refused ⊢
  cases step <;> cases refused
  rfl

end EditSet

namespace Worksite

abbrev SpliceLog := List (Place × Edit)

def SpliceLog.at (place : Place) (log : SpliceLog) : List Edit := (log.filter (·.1 = place)).map Prod.snd

def fileSplices (w : Worksite) (f : FileEdits) : SpliceLog :=
  match w.pending.get? f.path, w.disk.openFile f.path with
  | some set, .ok (place, bytes) => (set.splices ⟨bytes, 0⟩ f.ids).map (place, ·)
  | _, _ => []

def filesSplices (w : Worksite) : List FileEdits → SpliceLog
  | [] => []
  | f :: rest =>
    w.fileSplices f ++
      match w.applyFile f with
      | (.ok (), w) => w.filesSplices rest
      | _ => []

def splices (w : Worksite) : List Batch → SpliceLog
  | [] => []
  | b :: rest =>
    w.filesSplices b.files ++
      match w.applyBatch b with
      | (.ok _, w) => w.splices rest
      | _ => []

def Rewritten (disk : Disk) (log : SpliceLog) (m : Path) : Prop := ∃ x ∈ log, disk.locate m true = .ok x.1

def Refused (disk : Disk) (cause : Option ApplyCause) (m : Path) : Prop :=
  ∃ path why, cause = some (.cannotEdit path why) ∧ why.Refuses ∧ disk.locate m true = disk.locate path true

/-- The log accounts for the worksite: for its disk, and for each modified path but those of a refused file. -/
structure Account (disk : Disk) (paths : List Path) (log : SpliceLog) (cause : Option ApplyCause) (w : Worksite) :
    Prop where
  kept : Kept disk paths w
  replayed : ∀ place bytes, disk.node? place = some (.file bytes) →
    w.disk.node? place = some (.file ((log.at place).foldl Edit.spliced bytes))
  accounted : ∀ m ∈ w.modified, Rewritten disk log m ∨ Refused disk cause m
  listed : ∀ path why, cause = some (.cannotEdit path why) →
    ∃ m ∈ w.modified, disk.locate m true = disk.locate path true

section Log
variable {disk : Disk} {log : SpliceLog}

theorem rewrittenMore {m : Path} (more : SpliceLog) (rewritten : Rewritten disk log m) :
    Rewritten disk (log ++ more) m := by
  obtain ⟨x, mem, there⟩ := rewritten
  exact ⟨x, List.mem_append_left more mem, there⟩

theorem atAppend (place : Place) (log more : SpliceLog) :
    SpliceLog.at place (log ++ more) = log.at place ++ SpliceLog.at place more := by
  simp [SpliceLog.at]

theorem atMade (place here : Place) (edits : List Edit) :
    SpliceLog.at place (edits.map (here, ·)) = if here = place then edits else [] := by
  by_cases same : here = place <;> simp [SpliceLog.at, List.filter_map, Function.comp_def, same]

end Log

section Account
variable {disk : Disk} {paths : List Path} {log : SpliceLog} {w : Worksite}

theorem accountRewritten (account : Account disk paths log none w) : ∀ m ∈ w.modified, Rewritten disk log m := by
  intro m marked
  rcases account.accounted m marked with rewritten | ⟨path, why, none, _⟩
  · exact rewritten
  · cases none

theorem editAccount (account : Account disk paths log none w) {f : FileEdits} (mem : f.path ∈ paths)
    {place : Place} {bytes : Bytes} (opened : w.disk.openFile f.path = .ok (place, bytes)) (left : EditSet)
    {edits : List Edit} {failure : Option EditError}
    (nothing : edits = [] → ∃ why, failure = some why ∧ why.Refuses) :
    Account disk paths (log ++ edits.map (place, ·)) (failure.map (.cannotEdit f.path))
      (w.edit f.path place left (edits.foldl Edit.spliced bytes)) := by
  have sorted := account.kept.sorted
  obtain ⟨there, file⟩ := Disk.openFileOk opened
  rw [Disk.locateSameShape account.kept.shape] at there
  have kept := editKept account.kept mem opened left (edits.foldl Edit.spliced bytes)
  refine ⟨kept, ?_, ?_, ?_⟩
  · intro other old before
    have now := account.replayed other old before
    change (w.disk.write place _).node? other = _
    rw [Disk.writeNode file, atAppend, atMade, List.foldl_append]
    by_cases here : other = place
    · subst here
      rw [now] at file
      cases file
      simp
    · rw [if_neg here, if_neg (Ne.symm here)]
      exact now
  · intro m marked
    rcases (markMem sorted).mp marked with early | ⟨rfl, _⟩
    · exact .inl (rewrittenMore _ (accountRewritten account m early))
    · cases made : edits with
      | nil =>
        obtain ⟨why, rfl, refuses⟩ := nothing made
        exact .inr ⟨f.path, why, rfl, refuses, rfl⟩
      | cons e rest => exact .inl ⟨(place, e), by simp, there⟩
  · intro path why stopped
    obtain ⟨_, _, same⟩ := Option.map_eq_some_iff.mp stopped
    cases same
    obtain ⟨m, marked, spelled⟩ := markSame (p := f.path) sorted
    obtain ⟨found, leads⟩ := kept.located m marked
    cases Disk.locateSame spelled leads there
    exact ⟨m, marked, leads.trans there.symm⟩

theorem applyFileAccount (account : Account disk paths log none w) {f : FileEdits} (mem : f.path ∈ paths)
    (full : f.ids ≠ []) :
    Account disk paths (log ++ w.fileSplices f) (w.applyFile f).1.error? (w.applyFile f).2 := by
  have stays {cause : ApplyCause} (other : ∀ path why, cause ≠ .cannotEdit path why) :
      Account disk paths (log ++ []) (some cause) w := by
    rw [List.append_nil]
    exact ⟨account.kept, account.replayed, fun m marked => .inl (accountRewritten account m marked),
      fun path why stopped => absurd (Option.some.inj stopped) (other path why)⟩
  unfold applyFile fileSplices
  cases held : w.pending.get? f.path with
  | none => exact stays (by simp)
  | some set =>
    cases opened : w.disk.openFile f.path with
    | error e => exact stays (by simp)
    | ok found =>
      obtain ⟨place, bytes⟩ := found
      dsimp only
      rw [EditSet.applyIdsSpliced set ⟨bytes, 0⟩ f.ids, Outcome.mapError?]
      refine editAccount account mem opened _ fun nothing => ?_
      obtain ⟨why, failed, refuses⟩ := EditSet.applyIdsNothing full nothing
      exact ⟨why, by rw [failed]; rfl, refuses⟩

theorem applyFilesAccount (account : Account disk paths log none w) {files : List FileEdits}
    (listed : ∀ f ∈ files, f.path ∈ paths) (full : ∀ f ∈ files, f.ids ≠ []) :
    Account disk paths (log ++ w.filesSplices files) (w.applyFiles files).1.error? (w.applyFiles files).2 := by
  induction files generalizing w log with
  | nil => simpa [filesSplices, applyFiles] using account
  | cons f rest ih =>
    have step := applyFileAccount account (listed f List.mem_cons_self) (full f List.mem_cons_self)
    simp only [applyFiles, filesSplices]
    cases went : w.applyFile f with
    | mk outcome next =>
      rw [went] at step
      cases outcome with
      | error cause => simpa using step
      | panic panic => simpa using step
      | ok =>
        rw [← List.append_assoc]
        exact ih step (fun g mem => listed g (List.mem_cons_of_mem f mem)) fun g mem => full g (List.mem_cons_of_mem f mem)

theorem commitAccount (account : Account disk paths log none w) (b : Batch) {cause : Option ApplyCause}
    (other : ∀ path why, cause ≠ some (.cannotEdit path why)) :
    Account disk paths log cause (w.commit b).2 := by
  have same := commitSame w b
  refine ⟨sameKept account.kept same, ?_, ?_, fun path why stopped => absurd stopped (other path why)⟩
  · rw [same.disk]
    exact account.replayed
  · rw [same.modified]
    exact fun m marked => .inl (accountRewritten account m marked)

def endedBy {α : Type} (outcome : Outcome ApplyError α) : Option ApplyCause := outcome.error?.map ApplyError.cause

theorem endedByMap {α β : Type} (f : α → β) (outcome : Outcome ApplyError α) :
    endedBy (outcome.map f) = endedBy outcome := by
  cases outcome <;> rfl

theorem applyBatchesAccount (account : Account disk paths log none w) {batches : List Batch}
    (listed : ∀ b ∈ batches, ∀ f ∈ b.files, f.path ∈ paths) (full : ∀ b ∈ batches, ∀ f ∈ b.files, f.ids ≠ []) :
    Account disk paths (log ++ w.splices batches) (endedBy (w.applyBatches batches).1) (w.applyBatches batches).2 := by
  induction batches generalizing w log with
  | nil => simpa [splices, applyBatches, endedBy] using account
  | cons b rest ih =>
    have edited := applyFilesAccount account (listed b List.mem_cons_self) (full b List.mem_cons_self)
    simp only [applyBatches, splices, applyBatch]
    cases ran : w.applyFiles b.files with
    | mk outcome middle =>
      rw [ran] at edited
      cases outcome with
      | panic panic => simpa [endedBy] using edited
      | error cause => simpa [endedBy] using edited
      | ok =>
        dsimp only
        cases answered : middle.commit b with
        | mk answer next =>
          cases answer with
          | error e =>
            have submitted := @commitAccount _ _ _ _ edited b (some (.git e)) (by simp)
            rw [answered] at submitted
            simpa [endedBy] using submitted
          | ok id =>
            have submitted := @commitAccount _ _ _ _ edited b none (by simp)
            rw [answered] at submitted
            have later := ih submitted (fun c mem => listed c (List.mem_cons_of_mem b mem))
              fun c mem => full c (List.mem_cons_of_mem b mem)
            rw [List.append_assoc] at later
            dsimp only
            rw [endedByMap]
            exact later

end Account

/-- The report of a failed run is right just where something was spliced into the file in which editing stopped, if it
stopped in one; at fault is an edit that is not pending or reaches past the file. -/
theorem reportedRewrittenIff (disk : Disk) (repository : Option Git.Repository) (pending : PendingFiles) (p : Partition)
    (o : CommitSettings) (full : ∀ f ∈ p.groups.flatMap AuthorGroup.files ++ p.unattributed, f.ids ≠ []) (e : ApplyError)
    (failed : (({ disk, repository, pending } : Worksite).apply p o).1 = .error e) :
    let start : Worksite := { disk, repository, pending }
    let log := start.splices (p.batches o)
    (∀ place bytes, disk.node? place = some (.file bytes) →
      (start.apply p o).2.disk.node? place = some (.file ((log.at place).foldl Edit.spliced bytes))) ∧
    (∀ m ∈ e.modified, Rewritten disk log m ∨ Refused disk (some e.cause) m) ∧
    ((∀ m ∈ e.modified, Rewritten disk log m) ↔
      ∀ path why, e.cause = .cannotEdit path why → Rewritten disk log path) := by
  intro start log
  have begun : Account disk p.paths [] none start :=
    ⟨startKept rfl rfl, fun _ _ file => file, by simp [start], by simp⟩
  have named : ∀ b ∈ p.batches o, ∀ f ∈ b.files, f.ids ≠ [] := fun _ batch f file => full f (batchesMem batch file)
  have account := applyBatchesAccount begun (batchesListed p o) named
  have report := (applyBatchesKept begun.kept (batchesListed p o)).2
  rw [List.nil_append] at account
  cases went : start.applyBatches (p.batches o) with
  | mk outcome last =>
    rw [went] at account report
    have ended : start.apply p o = (outcome.map (ApplySummary.mk · last.modified), last) := by simp only [apply, went]
    rw [ended] at failed ⊢
    cases outcome <;> cases failed
    rw [report e rfl]
    refine ⟨account.replayed, account.accounted, ?_, ?_⟩
    · intro all path why stopped
      obtain ⟨m, marked, same⟩ := account.listed path why (congrArg some stopped)
      obtain ⟨x, mem, there⟩ := all m marked
      exact ⟨x, mem, same.symm.trans there⟩
    · intro stopped m marked
      rcases account.accounted m marked with rewritten | ⟨path, why, cause, _, there⟩
      · exact rewritten
      · obtain ⟨x, mem, found⟩ := stopped path why (Option.some.inj cause)
        exact ⟨x, mem, there.trans found⟩

-- The file `f` can be edited; the edit of `g` reaches past its one byte.
def halfDisk : Disk := { nodes := [(["f"], .file [97]), (["g"], .file [98])] }

def halfPending : PendingFiles :=
  [(⟨"f"⟩, ⟨[⟨⟨0, 1⟩, .ofNats 0 1 [120]⟩]⟩), (⟨"g"⟩, ⟨[⟨⟨5, 1⟩, .ofNats 5 1 [120]⟩]⟩)]

def halfStart : Worksite := { disk := halfDisk, repository := none, pending := halfPending }

def halfPartition : Partition := .build [] [(⟨"f"⟩, ⟨0, 1⟩), (⟨"g"⟩, ⟨5, 1⟩)]

def halfError : ApplyError :=
  ⟨"unattributed edits", [⟨"f"⟩, ⟨"g"⟩], .cannotEdit ⟨"g"⟩ (.outOfBounds ⟨5, 1⟩ 1)⟩

theorem halfFailed : (halfStart.apply halfPartition {}).1 = .error halfError := by decide +kernel

theorem halfSplices : halfStart.splices (halfPartition.batches {}) = [(["f"], .ofNats 0 1 [120])] := by decide +kernel

theorem halfRewritten :
    (∀ m ∈ halfError.modified, Rewritten halfDisk [(["f"], .ofNats 0 1 [120])] m ∨
      Refused halfDisk (some halfError.cause) m) ∧
    (halfStart.apply halfPartition {}).2.disk.node? ["f"] = some (.file [120]) ∧
    (halfStart.apply halfPartition {}).2.disk.node? ["g"] = some (.file [98]) := by
  obtain ⟨replayed, accounted, _⟩ :=
    reportedRewrittenIff halfDisk none halfPending halfPartition {} (by decide +kernel) halfError halfFailed
  have log : halfStart.splices (halfPartition.batches {}) = _ := halfSplices
  unfold halfStart at log
  rw [log] at replayed accounted
  exact ⟨accounted, replayed ["f"] [97] rfl, replayed ["g"] [98] rfl⟩

theorem refusedFileReported :
    (halfStart.apply halfPartition {}).1 = .error halfError ∧ ⟨"g"⟩ ∈ halfError.modified ∧
      ¬ Rewritten halfDisk (halfStart.splices (halfPartition.batches {})) ⟨"g"⟩ := by
  have located : halfDisk.locate ⟨"g"⟩ true = .ok ["g"] := by decide +kernel
  refine ⟨halfFailed, by decide, ?_⟩
  rw [halfSplices]
  rintro ⟨x, mem, there⟩
  cases List.mem_singleton.mp mem
  simp [located] at there

end Worksite
end KeepBlame
