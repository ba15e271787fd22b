import KeepBlame.Proofs.FileSteps
import KeepBlame.Proofs.Journal
import KeepBlame.Proofs.Partition

/-! What git is asked in a run, batch by batch. A batch is submitted once all its edits are made, and the first failure or
panic is the last thing that happens. -/
namespace KeepBlame
open Git (Exchange Scripted Told)

namespace Worksite

inductive Trace : Worksite → List Batch → List Exchange → Outcome ApplyError (List BatchRecord) → Worksite → Prop where
  | done (w : Worksite) : Trace w [] [] (.ok []) w
  | panicked {w last : Worksite} {b : Batch} {rest : List Batch} {panic : Panic}
      (stopped : Halted w b.files (.panic panic) last) : Trace w (b :: rest) [] (.panic panic) last
  | halted {w last : Worksite} {b : Batch} {rest : List Batch} {cause : ApplyCause}
      (stopped : Halted w b.files (.error cause) last) :
      Trace w (b :: rest) [] (.error ⟨b.label, last.modified, cause⟩) last
  | refused {w middle last : Worksite} {b : Batch} {rest : List Batch} {log : List (Path × Span)}
      {exchanges : List Exchange} {e : Git.Error} (edited : Edited w b.files log middle)
      (submitted : b.Submitted middle.disk exchanges (.error e)) (same : SameFiles middle last) :
      Trace w (b :: rest) exchanges (.error ⟨b.label, last.modified, .git e⟩) last
  | next {w middle after last : Worksite} {b : Batch} {rest : List Batch} {log : List (Path × Span)}
      {exchanges more : List Exchange} {id : Option CommitId} {outcome : Outcome ApplyError (List BatchRecord)}
      (edited : Edited w b.files log middle) (submitted : b.Submitted middle.disk exchanges (.ok id))
      (same : SameFiles middle after) (later : Trace after rest more outcome last) :
      Trace w (b :: rest) (exchanges ++ more) (outcome.map (batchRecord b id :: ·)) last

theorem editedRepository {w last : Worksite} {files : List FileEdits} {log : List (Path × Span)}
    (edited : Edited w files log last) : last.repository = w.repository := by
  induction edited with
  | nil w => rfl
  | cons held opened made next ih => exact ih

theorem stepRepository {w next : Worksite} {f : FileEdits} {outcome : Outcome ApplyCause Unit}
    (step : FileStep w f outcome next) : next.repository = w.repository := by
  cases step <;> rfl

theorem haltedRepository {w last : Worksite} {files : List FileEdits} {outcome : Outcome ApplyCause Unit}
    (halted : Halted w files outcome last) : last.repository = w.repository := by
  induction halted with
  | here step => exact stepRepository step
  | later step halted ih => exact ih.trans (stepRepository step)

theorem haltedCause {w last : Worksite} {files : List FileEdits} {outcome : Outcome ApplyCause Unit}
    (halted : Halted w files outcome last) (e : Git.Error) : outcome ≠ .error (.git e) := by
  induction halted with
  | here step =>
    cases step with
    | missing | closed => simp
    | opened held opened ran => cases ran <;> simp [EditSet.Step.result, Outcome.mapError]
  | later step halted ih => exact ih

theorem applyBatchesTrace {s : Git.Script} {journal : List Git.Asked} {told : List Exchange} {r : Git.Repository}
    (heard : Told s journal told r) {w : Worksite} (held : w.repository = some r) (batches : List Batch) :
    ∃ trace after, Trace w batches trace (w.applyBatches batches).1 (w.applyBatches batches).2 ∧
      (w.applyBatches batches).2.repository = some after ∧ Told s journal (told ++ trace) after := by
  induction batches generalizing w r told with
  | nil => exact ⟨[], r, .done w, held, by simpa using heard⟩
  | cons b rest ih =>
    simp only [applyBatches, applyBatch]
    cases ran : w.applyFiles b.files with
    | mk outcome middle =>
      cases outcome with
      | panic panic =>
        have halted := applyFilesHalted (by simp) ran
        exact ⟨[], r, .panicked halted, (haltedRepository halted).trans held, by simpa using heard⟩
      | error cause =>
        have halted := applyFilesHalted (by simp) ran
        exact ⟨[], r, .halted halted, (haltedRepository halted).trans held, by simpa using heard⟩
      | ok =>
        have edited := applyFilesEdited ran
        have kept := (editedRepository edited).trans held
        obtain ⟨exchanges, after, submitted, same, stays, heard⟩ := commitToSubmitted heard middle b
        have commit : middle.commit b = middle.commitTo r b := by simp only [Worksite.commit, kept]
        rw [← commit] at submitted same stays
        dsimp only
        cases answered : middle.commit b with
        | mk answer next =>
          rw [answered] at submitted same stays
          cases answer with
          | error e => exact ⟨exchanges, after, .refused edited submitted same, stays, heard⟩
          | ok id =>
            obtain ⟨more, final, trace, stays, heard⟩ := ih heard stays
            rw [List.append_assoc] at heard
            exact ⟨_, final, .next edited submitted same trace, stays, heard⟩

section Trace
variable {w last : Worksite} {batches : List Batch} {trace : List Exchange}

theorem traceWorded {outcome : Outcome ApplyError (List BatchRecord)} (ran : Trace w batches trace outcome last) :
    ∀ x ∈ trace, x.call.Worded x.call.arguments := by
  induction ran with
  | done | panicked | halted => simp
  | refused edited submitted same => exact fun x => submittedWorded submitted
  | next edited submitted same later ih =>
    intro x mem
    exact (List.mem_append.mp mem).elim (submittedWorded submitted) (ih x)

theorem traceOk {records : List BatchRecord} (ran : Trace w batches trace (.ok records) last) :
    (∀ x ∈ trace, ¬ x.Failed) ∧ records.countP (·.commit.isSome) = trace.countP (·.call.isCommit) ∧
      records.map (fun s => (s.author, s.files, s.edits, s.sourceCommits)) =
        batches.map fun b => (b.author, b.files.length, FileEdits.count b.files, b.sourceCommits) := by
  generalize ended : Outcome.ok records = outcome at ran
  induction ran generalizing records with
  | done w =>
    cases ended
    exact ⟨by simp, rfl, rfl⟩
  | panicked | halted | refused => cases ended
  | @next w middle after last b rest log exchanges more id outcome edited submitted same later ih =>
    obtain ⟨others, reached, rfl⟩ := Outcome.mapOkIff.mp ended.symm
    obtain ⟨fine, commits⟩ := submittedOk submitted
    obtain ⟨fine', commits', records⟩ := ih reached.symm
    refine ⟨?_, ?_, congrArg (_ :: ·) records⟩
    · intro x mem
      exact (List.mem_append.mp mem).elim (fine x) (fine' x)
    · rw [List.countP_append, commits, ← commits', List.countP_cons, Nat.add_comm]
      rfl

theorem traceError {e : ApplyError} (ran : Trace w batches trace (.error e) last) :
    ∃ early late, trace = early ++ late ∧ (∀ x ∈ early, ¬ x.Failed) ∧
      match e.cause with
      | .git _ => ∃ x, late = [x] ∧ x.Failed
      | _ => late = [] := by
  generalize ended : Outcome.error e = outcome at ran
  induction ran with
  | done | panicked => cases ended
  | halted stopped =>
    cases ended
    refine ⟨[], [], rfl, by simp, ?_⟩
    have other := haltedCause stopped
    split
    · rename_i e git
      exact absurd (congrArg Outcome.error git) (other e)
    · rfl
  | refused edited submitted same =>
    cases ended
    obtain ⟨early, x, split, fine, bad⟩ := submittedError submitted
    exact ⟨early, [x], split, fine, x, rfl, bad⟩
  | @next w middle after last b rest log exchanges more id outcome edited submitted same later ih =>
    obtain ⟨fine, _⟩ := submittedOk submitted
    obtain ⟨early, late, rfl, fine', ending⟩ := ih (Outcome.mapErrorIff.mp ended.symm).symm
    refine ⟨exchanges ++ early, late, (List.append_assoc ..).symm, ?_, ending⟩
    intro x mem
    exact (List.mem_append.mp mem).elim (fine x) (fine' x)

theorem tracePanic {panic : Panic} (ran : Trace w batches trace (.panic panic) last) : ∀ x ∈ trace, ¬ x.Failed := by
  generalize ended : Outcome.panic panic = outcome at ran
  induction ran with
  | done | halted | refused => cases ended
  | panicked stopped => simp
  | @next w middle after last b rest log exchanges more id outcome edited submitted same later ih =>
    intro x mem
    exact (List.mem_append.mp mem).elim ((submittedOk submitted).1 x) (ih (Outcome.mapPanicIff.mp ended.symm).symm x)

end Trace

theorem batchesOf (p : Partition) (o : CommitSettings) :
    (p.batches o).map (fun b => (b.files, b.message, b.author)) =
      p.groups.map (fun g => (g.files, o.message, some g.author)) ++
        if p.unattributed = [] then [] else [(p.unattributed, o.unattributedMessage, o.fallbackAuthor)] := by
  simp only [Partition.batches, List.map_append, List.map_map, List.isEmpty_iff]
  congr 1
  split <;> rfl

theorem callsBatchByBatch (disk : Disk) (r : Git.Repository) (pending : PendingFiles) (p : Partition)
    (o : CommitSettings) :
    let start : Worksite := { disk, repository := some r, pending }
    let answer := start.apply p o
    (∀ attributed unattributed, p = .build attributed unattributed →
      p.groups.Pairwise fun a b => a.author < b.author) ∧
    ((p.batches o).map fun b => (b.files, b.message, b.author)) =
      p.groups.map (fun g => (g.files, o.message, some g.author)) ++
        (if p.unattributed = [] then [] else [(p.unattributed, o.unattributedMessage, o.fallbackAuthor)]) ∧
    ∃ trace outcome after, Trace start (p.batches o) trace outcome answer.2 ∧
      answer.1 = outcome.map (ApplySummary.mk · answer.2.modified) ∧
      answer.2.repository = some after ∧ after.journal = r.journal ++ trace.map Exchange.asked ∧
      Scripted r.script trace ∧ (∀ x ∈ trace, x.call.Worded x.call.arguments) ∧
      (∀ summary, answer.1 = .ok summary →
        (∀ x ∈ trace, ¬ x.Failed) ∧ summary.commits = trace.countP (·.call.isCommit) ∧
        summary.batches.map (fun s => (s.author, s.files, s.edits, s.sourceCommits)) =
          (p.batches o).map fun b => (b.author, b.files.length, FileEdits.count b.files, b.sourceCommits)) ∧
      (∀ e, answer.1 = .error e → ∃ early late, trace = early ++ late ∧ (∀ x ∈ early, ¬ x.Failed) ∧
        match e.cause with
        | .git _ => ∃ x, late = [x] ∧ x.Failed
        | _ => late = []) ∧
      ∀ panic, answer.1 = .panic panic → ∀ x ∈ trace, ¬ x.Failed := by
  intro start answer
  obtain ⟨trace, after, ran, held, told⟩ := applyBatchesTrace (w := start) (Git.toldNil r) rfl (p.batches o)
  rw [List.nil_append] at told
  refine ⟨?_, batchesOf p o, trace, (start.applyBatches (p.batches o)).1, after, ?_⟩
  · rintro attributed unattributed rfl
    exact (Partition.buildGroups attributed unattributed).sorted
  refine ⟨ran, rfl, held, told.journal, told.scripted, traceWorded ran, ?_, ?_, ?_⟩
  · intro summary ok
    obtain ⟨records, reached, rfl⟩ := Outcome.mapOkIff.mp ok
    rw [reached] at ran
    exact traceOk ran
  · intro e error
    rw [Outcome.mapErrorIff.mp error] at ran
    exact traceError ran
  · intro panic panicked
    rw [Outcome.mapPanicIff.mp panicked] at ran
    exact tracePanic ran

end Worksite
end KeepBlame
