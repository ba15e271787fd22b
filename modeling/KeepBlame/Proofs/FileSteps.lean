import KeepBlame.Apply

/-! Editing files, one after the other. A file is edited as a whole or editing stops at it: its edits are missing, it
cannot be opened, or one of its edits is refused or panics after those before it were made. -/
namespace KeepBlame

namespace EditSet

inductive Makes : EditSet → Stream → List Span → EditSet → Stream → Prop where
  | nil (set : EditSet) (target : Stream) : Makes set target [] set target
  | cons {set middle last : EditSet} {target reached final : Stream} {id : Span} {ids : List Span} {delta : Int}
      (made : set.apply id target = .made delta middle reached) (next : Makes middle reached ids last final) :
      Makes set target (id :: ids) last final

inductive Ran (set : EditSet) (target : Stream) (ids : List Span) : Step Unit → Prop where
  | all {last : EditSet} {final : Stream} (made : Makes set target ids last final) :
      Ran set target ids (.made () last final)
  | refused {now last : EditSet} {reached final : Stream} {early late : List Span} {id : Span} {cause : EditError}
      (split : ids = early ++ id :: late) (made : Makes set target early now reached)
      (refused : now.apply id reached = .refused cause last final) : Ran set target ids (.refused cause last final)
  | panicked {now : EditSet} {reached final : Stream} {early late : List Span} {id : Span} {panic : Panic}
      (split : ids = early ++ id :: late) (made : Makes set target early now reached)
      (lost : now.apply id reached = .panicked panic final) : Ran set target ids (.panicked panic final)

theorem ranCons {set middle : EditSet} {target reached : Stream} {id : Span} {ids : List Span} {delta : Int}
    {step : Step Unit} (made : set.apply id target = .made delta middle reached) (ran : Ran middle reached ids step) :
    Ran set target (id :: ids) step := by
  cases ran with
  | all rest => exact .all (.cons made rest)
  | refused split early refused => exact .refused (congrArg (id :: ·) split) (.cons made early) refused
  | panicked split early lost => exact .panicked (congrArg (id :: ·) split) (.cons made early) lost

theorem applyIdsRan (set : EditSet) (target : Stream) (ids : List Span) :
    Ran set target ids (Worksite.applyIds set target ids) := by
  induction ids generalizing set target with
  | nil => exact .all (.nil set target)
  | cons id rest ih =>
    simp only [Worksite.applyIds]
    split
    · rename_i made
      exact ranCons made (ih _ _)
    · rename_i refused
      exact .refused (List.nil_append _).symm (.nil set target) refused
    · rename_i lost
      exact .panicked (List.nil_append _).symm (.nil set target) lost

end EditSet

def FileEdits.named (files : List FileEdits) : List (Path × Span) := files.flatMap fun f => f.ids.map (f.path, ·)

namespace Worksite
open EditSet (Makes Ran)

inductive FileStep (w : Worksite) (f : FileEdits) : Outcome ApplyCause Unit → Worksite → Prop where
  | missing (absent : w.pending.get? f.path = none) : FileStep w f (.error (.missingFile f.path)) w
  | closed {set : EditSet} {e : OsError} (held : w.pending.get? f.path = some set)
      (unopened : w.disk.openFile f.path = .error e) : FileStep w f (.error (.cannotOpen f.path e)) w
  | opened {set : EditSet} {place : Place} {bytes : Bytes} {step : EditSet.Step Unit}
      (held : w.pending.get? f.path = some set) (opened : w.disk.openFile f.path = .ok (place, bytes))
      (ran : Ran set ⟨bytes, 0⟩ f.ids step) :
      FileStep w f (step.result.mapError (.cannotEdit f.path))
        (w.edit f.path place (step.set?.getD set) step.target.bytes)

theorem applyFileStep (w : Worksite) (f : FileEdits) : FileStep w f (w.applyFile f).1 (w.applyFile f).2 := by
  unfold applyFile
  split
  · rename_i absent
    exact .missing absent
  · rename_i set held
    split
    · rename_i e unopened
      exact .closed held unopened
    · rename_i place bytes opened
      exact .opened held opened (EditSet.applyIdsRan set ⟨bytes, 0⟩ f.ids)

inductive Edited : Worksite → List FileEdits → List (Path × Span) → Worksite → Prop where
  | nil (w : Worksite) : Edited w [] [] w
  | cons {w last : Worksite} {f : FileEdits} {rest : List FileEdits} {set now : EditSet} {place : Place} {bytes : Bytes}
      {target : Stream} {log : List (Path × Span)} (held : w.pending.get? f.path = some set)
      (opened : w.disk.openFile f.path = .ok (place, bytes)) (made : Makes set ⟨bytes, 0⟩ f.ids now target)
      (next : Edited (w.edit f.path place now target.bytes) rest log last) :
      Edited w (f :: rest) (f.ids.map (f.path, ·) ++ log) last

inductive Halted : Worksite → List FileEdits → Outcome ApplyCause Unit → Worksite → Prop where
  | here {w last : Worksite} {f : FileEdits} {rest : List FileEdits} {outcome : Outcome ApplyCause Unit}
      (step : FileStep w f outcome last) (stop : outcome ≠ .ok ()) : Halted w (f :: rest) outcome last
  | later {w next last : Worksite} {f : FileEdits} {rest : List FileEdits} {outcome : Outcome ApplyCause Unit}
      (step : FileStep w f (.ok ()) next) (halted : Halted next rest outcome last) : Halted w (f :: rest) outcome last

theorem stepEdited {w next last : Worksite} {f : FileEdits} {rest : List FileEdits} {log : List (Path × Span)}
    (step : FileStep w f (.ok ()) next) (edited : Edited next rest log last) :
    Edited w (f :: rest) (f.ids.map (f.path, ·) ++ log) last := by
  generalize ended : Outcome.ok () = outcome at step
  cases step with
  | missing | closed => cases ended
  | opened held opened ran =>
    cases ran <;> cases ended
    rename_i made
    exact .cons held opened made edited

theorem applyFilesEdited {w last : Worksite} {files : List FileEdits} (ok : w.applyFiles files = (.ok (), last)) :
    Edited w files (FileEdits.named files) last := by
  induction files generalizing w with
  | nil =>
    cases ok
    exact .nil _
  | cons f rest ih =>
    have step := applyFileStep w f
    simp only [applyFiles] at ok
    split at ok
    · rename_i next went
      rw [went] at step
      exact stepEdited step (ih ok)
    · rename_i stopped
      exact absurd ok (stopped last)

theorem applyFilesHalted {w last : Worksite} {files : List FileEdits} {outcome : Outcome ApplyCause Unit}
    (stop : outcome ≠ .ok ()) (ended : w.applyFiles files = (outcome, last)) : Halted w files outcome last := by
  induction files generalizing w with
  | nil =>
    cases ended
    exact absurd rfl stop
  | cons f rest ih =>
    have step := applyFileStep w f
    simp only [applyFiles] at ended
    split at ended
    · rename_i next went
      rw [went] at step
      exact .later step (ih ended)
    · rw [ended] at step
      exact .here step stop

end Worksite
end KeepBlame
