import KeepBlame.Proofs.AnyOrder
import KeepBlame.Proofs.Generation

/-! The edits that are generated for a file against those that its formatter proposed. Where the generated edits are
accepted they do to the file what was proposed; they are refused just where trimming has left two insertions at one
position. -/
namespace KeepBlame.Generator
open Edit (Inside contentSize)

theorem insideOfLoad {g : Generator} {p : Path} {pristine : Bytes} {proposed : List Edit}
    (loaded : g.load p = .ok pristine) (inside : ∀ e ∈ proposed, e.span.start + e.span.size ≤ pristine.length) :
    ∀ e ∈ proposed, Inside pristine e :=
  fun e mem => ⟨inside e mem, (loadOk loaded).2⟩

theorem loadRead {g : Generator} {p : Path} {a b : Bytes} (loaded : g.load p = .ok a) (present : g.disk.read p = .ok b) :
    a = b :=
  Except.ok.inj ((loadOk loaded).1.symm.trans present)

theorem proposePlain {g : Generator} {p : Path} {pristine : Bytes} {proposed edits : List Edit}
    (answer : g.formatter.replacements p = .ok proposed) (plain : g.options.copyright = none)
    (ok : g.propose p pristine = .ok edits) : edits = trimAll pristine proposed := by
  obtain ⟨given, same, banner, _⟩ := proposeOk ok
  cases answer.symm.trans same
  simpa only [withBanner, plain] using banner

theorem trimmedReady {pristine : Bytes} {proposed : List Edit} {trimmed : EditSet}
    (inside : ∀ e ∈ proposed, Inside pristine e) (ok : EditSet.ofEdits (trimAll pristine proposed) = .ok trimmed)
    (room : pristine.length + contentSize proposed < 2 ^ 63) : EditSet.Ready pristine trimmed := by
  have size := Nat.le_trans (EditSet.contentSizeAccepted ok) (trimAllContent inside)
  refine EditSet.ofEditsReady ok ?_ (Nat.lt_of_le_of_lt (Nat.add_le_add_left size _) room)
  intro t mem
  exact (trimAllInside inside mem).2

theorem applyEveryId {pristine : Bytes} {set : EditSet} (ready : EditSet.Ready pristine set) {order : List Span}
    (perm : order.Perm set.ids) :
    ∃ now target, Worksite.applyIds set ⟨pristine, 0⟩ order = .made () now target ∧ now.pending = [] ∧
      target.bytes = Edit.onePassFrom 0 pristine set.edits := by
  have distinct : ([] ++ order).Nodup := perm.nodup_iff.mpr (Ordered.sortedNodup ready.ascending)
  have start : EditSet.Reached pristine set [] set ⟨pristine, 0⟩ := EditSet.reachedStart rfl
  obtain ⟨now, target, run, state⟩ := EditSet.applyIdsReached ready start (fun id => perm.mem_iff.mp) distinct
  exact ⟨now, target, run, EditSet.reachedAll state fun id => perm.mem_iff.mpr⟩

theorem generatedDoesAsProposed {g : Generator} {p : Path} {pristine : Bytes} {proposed : List Edit} {set : EditSet}
    (present : g.disk.read p = .ok pristine) (answer : g.formatter.replacements p = .ok proposed)
    (plain : g.options.copyright = none)
    (inside : ∀ e ∈ proposed, e.span.start + e.span.size ≤ pristine.length)
    (accepted : EditSet.ofEdits proposed = .ok set) :
    (∀ generated, (g.file p).outcome = .formatted generated →
      Edit.onePass pristine generated.set.edits = Edit.onePass pristine proposed ∧
      (pristine.length + contentSize proposed < 2 ^ 63 → ∀ order, order.Perm generated.set.ids →
        ∃ now target, Worksite.applyIds generated.set ⟨pristine, 0⟩ order = .made () now target ∧
          now.pending = [] ∧ target.bytes = Edit.onePass pristine proposed)) ∧
    ((g.file p).outcome = .clean → Edit.onePass pristine proposed = pristine) := by
  have course := fileCourse g p
  constructor
  · intro generated formatted
    rw [formatted] at course
    cases course with
    | @formatted _ _ made _ loaded proposal trimmed _ =>
      cases loadRead loaded present
      cases proposePlain answer plain proposal
      have within := insideOfLoad loaded inside
      obtain ⟨_, same, edits⟩ := trimmedAccepted accepted within (apartOfAccepted trimmed fun e => trimAllReal)
      cases trimmed.symm.trans same
      have whole := trimmedOnePass accepted within
      have one : Edit.onePass pristine (made.edits.filter fun _ => true) = _ := EditSet.onePassSelected trimmed _
      rw [List.filter_true] at one
      rw [← edits] at whole
      refine ⟨one.trans whole, ?_⟩
      intro room order perm
      obtain ⟨now, target, run, done, bytes⟩ := applyEveryId (trimmedReady within trimmed room) perm
      exact ⟨now, target, run, done, bytes.trans whole⟩
  · intro clean
    rw [clean] at course
    cases course with
    | clean loaded proposal =>
      cases loadRead loaded present
      have nothing := proposePlain answer plain proposal
      have within := insideOfLoad loaded inside
      have perm := trimAllPerm accepted within
      rw [← nothing] at perm
      rw [← trimmedOnePass accepted within, List.nil_perm.mp perm]
      rfl

theorem neighboursDoAsProposed :
    ∃ (g : Generator) (generated : Generated), (g.file ⟨"f"⟩).outcome = .formatted generated ∧
      generated.set.edits = [.ofNats 1 0 [98], .ofNats 2 0 [120]] ∧
      Edit.onePass [97, 99, 100] generated.set.edits = [97, 98, 99, 120, 100] := by
  let g : Generator := {
    disk := { nodes := [(["f"], .file [97, 99, 100])] }
    repository := none
    baseline := none
    formatter := ⟨fun _ => .ok [.ofNats 1 1 [99, 120], .ofNats 0 1 [97, 98]]⟩
    options := { maxBytes := 100 } }
  have formatted : (g.file ⟨"f"⟩).outcome = .formatted
      ⟨⟨[⟨⟨1, 0⟩, .ofNats 1 0 [98]⟩, ⟨⟨2, 0⟩, .ofNats 2 0 [120]⟩]⟩, .unattributed .noBaseline⟩ := by decide +kernel
  have present : g.disk.read ⟨"f"⟩ = .ok [97, 99, 100] := by decide +kernel
  have same := (@generatedDoesAsProposed g ⟨"f"⟩ [97, 99, 100] _ _ present rfl rfl (by decide) rfl).1 _ formatted
  exact ⟨g, _, formatted, rfl, same.1.trans (by decide)⟩

theorem trimmedAcceptedIff {pristine : Bytes} {proposed : List Edit} {set : EditSet}
    (positions : pristine.length ≤ Span.limit)
    (inside : ∀ e ∈ proposed, e.span.start + e.span.size ≤ pristine.length)
    (accepted : EditSet.ofEdits proposed = .ok set) :
    ((∃ trimmed, EditSet.ofEdits (trimAll pristine proposed) = .ok trimmed) ↔
      (insertions (trimAll pristine proposed)).Nodup) ∧
    ∀ (g : Generator) (p : Path), g.load p = .ok pristine → g.formatter.replacements p = .ok proposed →
      g.options.copyright = none →
      ((∃ e, (g.file p).outcome = .skipped (.unusable e)) ↔ ¬ (insertions (trimAll pristine proposed)).Nodup) := by
  have within : ∀ e ∈ proposed, Inside pristine e := fun e mem => ⟨inside e mem, positions⟩
  have exactly : (∃ trimmed, EditSet.ofEdits (trimAll pristine proposed) = .ok trimmed) ↔
      (insertions (trimAll pristine proposed)).Nodup := by
    constructor
    · rintro ⟨trimmed, ok⟩
      exact apartOfAccepted ok fun e => trimAllReal
    · intro apart
      obtain ⟨trimmed, ok, _⟩ := trimmedAccepted accepted within apart
      exact ⟨trimmed, ok⟩
  refine ⟨exactly, ?_⟩
  intro g p loaded answer plain
  have proposal : g.propose p pristine = .ok (trimAll pristine proposed) := by
    rw [proposeIs answer fun e mem => (trimAllInside within mem).2]
    simp only [withBanner, plain]
  rw [clashIff loaded proposal, ← exactly]
  cases EditSet.ofEdits (trimAll pristine proposed) with
  | error e => simp
  | ok trimmed => simp

theorem meetingInsertionsRefused :
    ¬ ∃ trimmed, EditSet.ofEdits (trimAll [97, 99] [.ofNats 0 1 [97, 98], .ofNats 1 1 [120, 99]]) = .ok trimmed := by
  have exactly := @trimmedAcceptedIff [97, 99] [.ofNats 0 1 [97, 98], .ofNats 1 1 [120, 99]] _ (by decide) (by decide) rfl
  rw [exactly.1]
  decide

theorem trimmedNeighboursClash :
    (∃ set, EditSet.ofEdits [.ofNats 0 1 [97, 98], .ofNats 1 1 [120, 99]] = .ok set) ∧
      EditSet.ofEdits (trimAll [97, 99] [.ofNats 0 1 [97, 98], .ofNats 1 1 [120, 99]]) =
        .error (.overlap ⟨1, 0⟩ ⟨1, 0⟩) := by
  refine ⟨⟨_, rfl⟩, ?_⟩
  decide

end KeepBlame.Generator
