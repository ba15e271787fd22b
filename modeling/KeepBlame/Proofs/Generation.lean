import KeepBlame.Proofs.Disk
import KeepBlame.Proofs.Trim

/-! What generation makes of a file. A file that is formatted has been read whole, its edits are those proposed, cut
down and with the banner in front, and each of them is attributed or none. -/
namespace KeepBlame.Generator

theorem loadOk {g : Generator} {p : Path} {pristine : Bytes} (ok : g.load p = .ok pristine) :
    g.disk.read p = .ok pristine ∧ pristine.length ≤ Span.limit := by
  unfold load at ok
  cases sized : g.disk.size p with
  | error e => simp [sized] at ok
  | ok size =>
    simp only [sized] at ok
    split at ok <;> try contradiction
    rename_i small
    split at ok <;> try contradiction
    cases loaded : g.disk.read p with
    | error e => simp [loaded] at ok
    | ok bytes =>
      simp only [loaded] at ok
      cases ok
      have same := Disk.sizeOfRead loaded
      rw [sized] at same
      cases same
      have word := g.options.maxBytes.toNat_lt
      refine ⟨rfl, ?_⟩
      simp only [Span.limit]
      omega

theorem proposeOk {g : Generator} {p : Path} {pristine : Bytes} {edits : List Edit}
    (ok : g.propose p pristine = .ok edits) :
    ∃ proposed, g.formatter.replacements p = .ok proposed ∧ edits = g.withBanner pristine (trimAll pristine proposed) ∧
      ∀ e ∈ trimAll pristine proposed, e.span.stop ≤ pristine.length := by
  unfold propose at ok
  cases answer : g.formatter.replacements p with
  | error e => simp [answer] at ok
  | ok proposed =>
    simp only [answer] at ok
    split at ok <;> try contradiction
    rename_i bounds
    cases ok
    refine ⟨proposed, rfl, rfl, ?_⟩
    intro e mem
    have := List.find?_eq_none.mp bounds e mem
    simpa using this

theorem proposeIs {g : Generator} {p : Path} {pristine : Bytes} {proposed : List Edit}
    (answer : g.formatter.replacements p = .ok proposed)
    (bounds : ∀ e ∈ trimAll pristine proposed, e.span.stop ≤ pristine.length) :
    g.propose p pristine = .ok (g.withBanner pristine (trimAll pristine proposed)) := by
  have none : (trimAll pristine proposed).find? (·.span.stop > pristine.length) = none := by
    refine List.find?_eq_none.mpr fun e mem => ?_
    simpa using bounds e mem
  simp only [propose, answer, none]

theorem resolveAllIds {map : LineMap} {pristine : Bytes} {set : EditSet} {resolved : List (Span × Resolution)}
    (ok : resolveAll map pristine set = some resolved) : resolved.map Prod.fst = set.ids := by
  unfold resolveAll at ok
  unfold EditSet.ids
  generalize set.pending = pending at ok
  induction pending generalizing resolved with
  | nil => simp_all
  | cons p rest ih =>
    simp only [List.mapM_cons, bind, Option.bind_eq_some_iff] at ok
    obtain ⟨first, ⟨resolution, _, named⟩, others, found, whole⟩ := ok
    cases named
    cases whole
    simp only [List.map_cons, ih found]

inductive Course (g : Generator) (p : Path) : FileOutcome → Prop where
  | unread {reason} (loaded : g.load p = .error reason) : Course g p (.skipped reason)
  | unproposed {pristine reason} (loaded : g.load p = .ok pristine) (proposed : g.propose p pristine = .error reason) :
      Course g p (.skipped reason)
  | clean {pristine} (loaded : g.load p = .ok pristine) (proposed : g.propose p pristine = .ok []) : Course g p .clean
  | clash {pristine edits e} (loaded : g.load p = .ok pristine) (proposed : g.propose p pristine = .ok edits)
      (refused : EditSet.ofEdits edits = .error e) : Course g p (.skipped (.unusable e))
  | panicked {pristine edits set panic} (loaded : g.load p = .ok pristine) (proposed : g.propose p pristine = .ok edits)
      (accepted : EditSet.ofEdits edits = .ok set) (blamed : g.blame p = .panicked panic) : Course g p (.panicked panic)
  | formatted {pristine edits set attribution} (loaded : g.load p = .ok pristine)
      (proposed : g.propose p pristine = .ok edits) (accepted : EditSet.ofEdits edits = .ok set)
      (all : ∀ ids, attribution = .attributed ids → ids.map Prod.fst = set.ids) :
      Course g p (.formatted ⟨set, attribution⟩)

theorem attributedCourse {g : Generator} {p : Path} {pristine : Bytes} {edits : List Edit} {set : EditSet}
    (loaded : g.load p = .ok pristine) (proposed : g.propose p pristine = .ok edits)
    (accepted : EditSet.ofEdits edits = .ok set) : Course g p (g.attributed p pristine set).outcome := by
  unfold attributed
  cases blamed : g.blame p with
  | panicked panic => exact .panicked loaded proposed accepted blamed
  | unavailable reason => exact .formatted loaded proposed accepted (by simp)
  | lines map =>
    cases resolved : resolveAll map pristine set with
    | none =>
      simp only [resolved]
      exact .formatted loaded proposed accepted (by simp)
    | some list =>
      simp only [resolved]
      refine .formatted loaded proposed accepted ?_
      rintro ids ⟨rfl⟩
      rw [List.map_map, ← resolveAllIds resolved]
      rfl

theorem fileCourse (g : Generator) (p : Path) : Course g p (g.file p).outcome := by
  unfold file
  cases loaded : g.load p with
  | error reason => exact .unread loaded
  | ok pristine =>
    cases proposed : g.propose p pristine with
    | error reason =>
      simp only [proposed]
      exact .unproposed loaded proposed
    | ok edits =>
      by_cases empty : edits.isEmpty = true
      · cases List.isEmpty_iff.mp empty
        simp only [proposed, List.isEmpty_nil, if_true]
        exact .clean loaded proposed
      · cases accepted : EditSet.ofEdits edits with
        | error e =>
          simp only [proposed, empty, accepted, if_false, Bool.false_eq_true]
          exact .clash loaded proposed accepted
        | ok set =>
          simp only [proposed, empty, accepted, if_false, Bool.false_eq_true]
          exact attributedCourse loaded proposed accepted

theorem filePanics {g : Generator} {p : Path} {panic : Panic} (panicked : (g.file p).panic? = some panic) :
    panic = .hunksOutOfOrder := by
  have course := fileCourse g p
  unfold FileReport.panic? at panicked
  generalize (g.file p).outcome = outcome at course panicked
  cases course <;> cases panicked
  rename_i blamed
  unfold blame Snapshot.take Snapshot.ofHunks at blamed
  repeat' split at blamed
  all_goals cases blamed
  rfl

theorem clashIff {g : Generator} {p : Path} {pristine : Bytes} {edits : List Edit} (loaded : g.load p = .ok pristine)
    (proposed : g.propose p pristine = .ok edits) :
    (∃ e, (g.file p).outcome = .skipped (.unusable e)) ↔ ∃ e, EditSet.ofEdits edits = .error e := by
  cases accepted : EditSet.ofEdits edits with
  | error e =>
    have full : edits.isEmpty = false := by
      cases edits with
      | nil => cases accepted
      | cons => rfl
    simp [file, loaded, proposed, accepted, full, skip]
  | ok set =>
    have course := attributedCourse loaded proposed accepted
    simp only [file, loaded, proposed, accepted, reduceCtorEq, exists_false, iff_false, not_exists]
    intro e skipped
    split at skipped
    · cases skipped
    · rw [skipped] at course
      cases course with
      | unread failed => cases loaded.symm.trans failed
      | unproposed read failed =>
        cases loaded.symm.trans read
        cases proposed.symm.trans failed
      | clash read offered refused =>
        cases loaded.symm.trans read
        cases proposed.symm.trans offered
        cases accepted.symm.trans refused

end KeepBlame.Generator
