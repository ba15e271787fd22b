import KeepBlame.Proofs.Accepted
import Mathlib.Data.List.Nodup

/-! What is left of a set when some of its edits have been made: the others, each moved by the deltas of those made
before it in the file. Moved so, each covers in the target the bytes that it covered in the pristine file. -/
namespace KeepBlame.EditSet
open Edit (InOrder contentSize deltaSum)

def moved (delta : Int) (p : Pending) : Pending :=
  { p with edit := { p.edit with span.offset := (p.edit.span.start + delta).toNat.toUInt64 } }

/-- The pending edits once those of `made` have been made; `delta` is how far the first of them has moved. -/
def remaining (made : List Span) (delta : Int) : List Pending → List Pending
  | [] => []
  | p :: rest =>
    if p.id ∈ made then remaining made (delta + p.edit.delta) rest else moved delta p :: remaining made delta rest

def madeEdits (made : List Span) (pending : List Pending) : List Edit :=
  (pending.filter (·.id ∈ made)).map Pending.edit

theorem madeFilter {made : List Span} {pending : List Pending} (named : ∀ p ∈ pending, p.id = p.edit.span) :
    madeEdits made pending = (pending.map Pending.edit).filter (·.span ∈ made) := by
  rw [madeEdits, List.filter_map]
  congr 1
  refine List.filter_congr fun p mem => ?_
  simp only [named p mem, Function.comp_apply]

theorem movedStart {delta : Int} {p : Pending} (low : 0 ≤ p.edit.span.start + delta)
    (high : p.edit.span.start + delta ≤ Span.limit) :
    ((moved delta p).edit.span.start : Int) = p.edit.span.start + delta := by
  simp only [moved, Span.start, Span.limit] at *
  rw [Nat.toUInt64, UInt64.toNat_ofNat']
  omega

theorem movedSpan {delta : Int} {p : Pending} (exact : p.edit.span.stop = p.edit.span.start + p.edit.span.size)
    (low : 0 ≤ p.edit.span.start + delta) (high : p.edit.span.stop + delta ≤ Edit.sizeLimit) :
    ((moved delta p).edit.span.start : Int) = p.edit.span.start + delta ∧
      ((moved delta p).edit.span.stop : Int) = p.edit.span.stop + delta := by
  have limits : (Edit.sizeLimit : Int) ≤ Span.limit := by decide
  have start := movedStart low (by omega)
  have size : (moved delta p).edit.span.size = p.edit.span.size := rfl
  refine ⟨start, ?_⟩
  rw [Span.stopExact (by omega), size]
  omega

theorem remainingAppend {made : List Span} {delta : Int} {xs ys : List Pending} :
    remaining made delta (xs ++ ys) =
      remaining made delta xs ++ remaining made (delta + deltaSum (madeEdits made xs)) ys := by
  induction xs generalizing delta with
  | nil => simp [remaining, madeEdits, deltaSum]
  | cons p rest ih =>
    by_cases done : p.id ∈ made
    · simp [remaining, madeEdits, deltaSum, done, ih, Int.add_assoc]
    · simp [remaining, madeEdits, deltaSum, done, ih]

theorem remainingIds {made : List Span} {delta : Int} {pending : List Pending} :
    (remaining made delta pending).map Pending.id = (pending.map Pending.id).filter (· ∉ made) := by
  induction pending generalizing delta with
  | nil => rfl
  | cons p rest ih =>
    by_cases done : p.id ∈ made
    · simp [remaining, done, ih]
    · simp [remaining, done, ih, moved]

theorem remainingMem {made : List Span} {delta : Int} {pending : List Pending} {q : Pending}
    (mem : q ∈ remaining made delta pending) :
    ∃ before p after, pending = before ++ p :: after ∧ p.id ∉ made ∧
      q = moved (delta + deltaSum (madeEdits made before)) p := by
  induction pending generalizing delta with
  | nil => simp [remaining] at mem
  | cons p rest ih =>
    by_cases done : p.id ∈ made
    · simp only [remaining, done, if_true] at mem
      obtain ⟨before, r, after, split, todo, place⟩ := ih mem
      refine ⟨p :: before, r, after, by rw [split, List.cons_append], todo, ?_⟩
      rw [place]
      simp [madeEdits, done, deltaSum, Int.add_assoc]
    · simp only [remaining, done, if_false] at mem
      rcases List.mem_cons.mp mem with rfl | mem
      · exact ⟨[], p, rest, rfl, done, by simp [madeEdits, deltaSum]⟩
      · obtain ⟨before, r, after, split, todo, place⟩ := ih mem
        refine ⟨p :: before, r, after, by rw [split, List.cons_append], todo, ?_⟩
        rw [place]
        simp [madeEdits, done]

theorem movedZero (p : Pending) : moved 0 p = p := by
  simp [moved, Span.start]

theorem remainingNone (pending : List Pending) : remaining [] 0 pending = pending := by
  induction pending with
  | nil => rfl
  | cons p rest ih => simp only [remaining, List.not_mem_nil, if_false, movedZero, ih]

theorem remainingInsert {made : List Span} {id : Span} {delta : Int} {pending : List Pending}
    (absent : ∀ p ∈ pending, p.id ≠ id) : remaining (id :: made) delta pending = remaining made delta pending := by
  induction pending generalizing delta with
  | nil => rfl
  | cons p rest ih =>
    have other := absent p List.mem_cons_self
    have tail : ∀ d, remaining (id :: made) d rest = remaining made d rest :=
      fun d => ih fun q mem => absent q (List.mem_cons_of_mem p mem)
    simp only [remaining, List.mem_cons, other, false_or, tail]

theorem remainingInOrder {made : List Span} {delta : Int} {cursor stop : Nat} {pending : List Pending}
    (order : InOrder cursor (pending.map Pending.edit) stop) (low : 0 ≤ cursor + delta)
    (high : stop ≤ Edit.sizeLimit) (room : stop + delta + contentSize (pending.map Pending.edit) ≤ Edit.sizeLimit) :
    InOrder (cursor + delta).toNat ((remaining made delta pending).map Pending.edit)
      (stop + delta + deltaSum (madeEdits made pending)).toNat := by
  induction pending generalizing cursor delta with
  | nil =>
    have le : cursor ≤ stop := order
    simp only [remaining, madeEdits, deltaSum, List.filter_nil, List.map_nil, List.sum_nil, InOrder]
    omega
  | cons p rest ih =>
    have start : cursor ≤ p.edit.span.start := order.1
    have tail : InOrder p.edit.span.stop (rest.map Pending.edit) stop := order.2
    have inside := Edit.inOrderLe tail
    have spans := p.edit.span.startLeStop
    simp only [contentSize, List.map_cons, List.sum_cons] at room
    have exact := @Edit.deltaExact p.edit (by omega) (by omega)
    by_cases done : p.id ∈ made
    · -- The content stands where the span was, so what follows comes after it.
      have after := @ih (delta + p.edit.delta) _ tail (by omega) (by simp only [contentSize]; omega)
      simp only [remaining, madeEdits, deltaSum, done, decide_true, List.filter_cons_of_pos, List.map_cons,
        List.sum_cons, if_true] at after ⊢
      exact Edit.inOrderWiden (by omega) (by omega) after
    · have after := @ih delta _ tail (by omega) (by simp only [contentSize]; omega)
      have place := @movedSpan delta p exact.1 (by omega) (by omega)
      simp only [remaining, madeEdits, done, decide_false, if_false, List.map_cons, List.filter_cons,
        Bool.false_eq_true] at after ⊢
      exact ⟨by omega, Edit.inOrderWiden (by omega) (Nat.le_refl _) after⟩

theorem shiftAllRemaining {made : List Span} {delta shift : Int} {cursor stop : Nat} {pending : List Pending}
    (order : InOrder cursor (pending.map Pending.edit) stop) (low : 0 ≤ cursor + delta)
    (lower : 0 ≤ cursor + delta + shift) (high : stop ≤ Edit.sizeLimit)
    (room : stop + delta + contentSize (pending.map Pending.edit) ≤ Edit.sizeLimit)
    (roomier : stop + delta + shift + contentSize (pending.map Pending.edit) ≤ Edit.sizeLimit) :
    shiftAll shift (remaining made delta pending) = (remaining made (delta + shift) pending, none) := by
  have limits : (Edit.sizeLimit : Int) ≤ Span.limit := by decide
  induction pending generalizing cursor delta with
  | nil => rfl
  | cons p rest ih =>
    have start : cursor ≤ p.edit.span.start := order.1
    have tail : InOrder p.edit.span.stop (rest.map Pending.edit) stop := order.2
    have inside := Edit.inOrderLe tail
    have spans := p.edit.span.startLeStop
    simp only [contentSize, List.map_cons, List.sum_cons] at room roomier
    have exact := @Edit.deltaExact p.edit (by omega) (by omega)
    by_cases done : p.id ∈ made
    · have after := @ih (delta + p.edit.delta) _ tail (by omega) (by omega) (by simp only [contentSize]; omega)
        (by simp only [contentSize]; omega)
      have swap : delta + shift + p.edit.delta = delta + p.edit.delta + shift := by omega
      simp only [remaining, done, if_true, after, swap]
    · have after := @ih delta _ tail (by omega) (by omega) (by simp only [contentSize]; omega)
        (by simp only [contentSize]; omega)
      have place := @movedStart delta p (by omega) (by omega)
      have next : Span.shift? shift (moved delta p).edit.span = some (moved (delta + shift) p).edit.span := by
        have fits : 0 ≤ ((moved delta p).edit.span.start : Int) + shift ∧
            ((moved delta p).edit.span.start : Int) + shift ≤ Span.limit := by omega
        unfold Span.shift?
        simp only [if_pos fits]
        rw [place, Int.add_assoc]
        rfl
      simp only [remaining, done, if_false, shiftAll, next, after]
      rfl

theorem inOrderTrue {pending : List Pending} {cursor stop : Nat}
    (order : InOrder cursor (pending.map Pending.edit) stop) : inOrder pending = true := by
  induction pending generalizing cursor with
  | nil => rfl
  | cons a rest ih =>
    cases rest with
    | nil => rfl
    | cons b rest =>
      simp only [inOrder, Bool.and_eq_true, decide_eq_true_eq]
      exact ⟨order.2.1, ih order.2⟩

theorem madeSublist (made : List Span) (pending : List Pending) :
    (madeEdits made pending).Sublist (pending.map Pending.edit) :=
  List.filter_sublist.map Pending.edit

theorem madeAppend (made : List Span) (xs ys : List Pending) :
    madeEdits made (xs ++ ys) = madeEdits made xs ++ madeEdits made ys := by
  simp only [madeEdits, List.filter_append, List.map_append]

theorem madeInsert {made : List Span} {id : Span} {pending : List Pending} (absent : ∀ p ∈ pending, p.id ≠ id) :
    madeEdits (id :: made) pending = madeEdits made pending := by
  unfold madeEdits
  congr 1
  refine List.filter_congr fun p mem => ?_
  simp only [List.mem_cons, absent p mem, false_or]

structure Cut (pristine : Bytes) (before : List Pending) (p : Pending) (after : List Pending) : Prop where
  head : InOrder 0 (before.map Pending.edit) p.edit.span.start
  tail : InOrder p.edit.span.stop (after.map Pending.edit) pristine.length
  room : pristine.length + contentSize (before.map Pending.edit) + p.edit.content.length +
    contentSize (after.map Pending.edit) ≤ Edit.sizeLimit
  others : ∀ q, q ∈ before ∨ q ∈ after → q.id ≠ p.id

theorem readyCut {pristine : Bytes} {set : EditSet} (ready : Ready pristine set) {before after : List Pending}
    {p : Pending} (split : set.pending = before ++ p :: after) : Cut pristine before p after := by
  have inside := ready.inside
  have room := ready.room
  have ascending := ready.ascending
  rw [edits, split, List.map_append, List.map_cons] at inside room
  rw [ids, split, List.map_append, List.map_cons] at ascending
  have halves := Edit.inOrderCut inside
  refine ⟨halves.1, halves.2, ?_, ?_⟩
  · rw [contentSizeAppend] at room
    simp only [contentSize, List.map_cons, List.sum_cons] at room ⊢
    omega
  · have nodup := Ordered.sortedNodup ascending
    rw [List.nodup_middle, List.nodup_cons, List.mem_append] at nodup
    rintro q (mem | mem) same
    · exact nodup.1 (.inl (same ▸ List.mem_map_of_mem mem))
    · exact nodup.1 (.inr (same ▸ List.mem_map_of_mem mem))

section Target
variable {pristine : Bytes} {before after : List Pending} {p : Pending} (cut : Cut pristine before p after)
  (made : List Span)
include cut

theorem cutExact : p.edit.span.stop = p.edit.span.start + p.edit.span.size ∧
    p.edit.delta = p.edit.content.length - p.edit.span.size := by
  have stop := Edit.inOrderLe cut.tail
  have room := cut.room
  exact Edit.deltaExact (by omega) (by omega)

theorem cutHeadLength :
    ((Edit.upTo 0 p.edit.span.start pristine (madeEdits made before)).length : Int) =
      p.edit.span.start + deltaSum (madeEdits made before) := by
  have stop := Edit.inOrderLe cut.tail
  have spans := p.edit.span.startLeStop
  have size := contentSizeSublist (madeSublist made before)
  have room := cut.room
  have length := Edit.upToLength (Edit.inOrderSublist (madeSublist made before) cut.head)
    (show p.edit.span.start ≤ pristine.length by omega) (by omega)
  omega

theorem cutTarget (todo : p.id ∉ made) :
    Edit.onePassFrom 0 pristine (madeEdits made (before ++ p :: after)) =
      Edit.upTo 0 p.edit.span.start pristine (madeEdits made before) ++
        (between pristine p.edit.span.start p.edit.span.stop ++
          Edit.onePassFrom p.edit.span.stop pristine (madeEdits made after)) := by
  have skip : madeEdits made (p :: after) = madeEdits made after := by
    simp only [madeEdits, List.filter_cons, todo, decide_false, Bool.false_eq_true, if_false]
  have head := Edit.inOrderSublist (madeSublist made before) cut.head
  have tail := Edit.inOrderSublist (madeSublist made after) cut.tail
  have later := Edit.inOrderWiden p.edit.span.startLeStop (Nat.le_refl _) tail
  rw [madeAppend, skip, Edit.onePassSplit head later, Edit.onePassGap p.edit.span.startLeStop tail]

theorem cutTargetMade :
    Edit.onePassFrom 0 pristine (madeEdits (p.id :: made) (before ++ p :: after)) =
      Edit.upTo 0 p.edit.span.start pristine (madeEdits made before) ++
        (p.edit.content ++ Edit.onePassFrom p.edit.span.stop pristine (madeEdits made after)) := by
  have here : madeEdits (p.id :: made) (p :: after) = p.edit :: madeEdits made after := by
    rw [← madeInsert fun q mem => cut.others q (.inr mem)]
    simp only [madeEdits, List.filter_cons, List.mem_cons, true_or, decide_true, if_true, List.map_cons]
  have head := Edit.inOrderSublist (madeSublist made before) cut.head
  have tail := Edit.inOrderSublist (madeSublist made after) cut.tail
  have both : InOrder p.edit.span.start (p.edit :: madeEdits made after) pristine.length := ⟨Nat.le_refl _, tail⟩
  rw [madeAppend, madeInsert fun q mem => cut.others q (.inl mem), here, Edit.onePassSplit head both, Edit.onePassCons]

theorem cutMoved :
    (moved (deltaSum (madeEdits made before)) p).edit.span.start =
        (Edit.upTo 0 p.edit.span.start pristine (madeEdits made before)).length ∧
      (moved (deltaSum (madeEdits made before)) p).edit.span.stop =
        (Edit.upTo 0 p.edit.span.start pristine (madeEdits made before)).length + p.edit.span.size := by
  have exact := cutExact cut
  have length := cutHeadLength cut made
  have head := Edit.inOrderSublist (madeSublist made before) cut.head
  have stop := Edit.inOrderLe cut.tail
  have size := contentSizeSublist (madeSublist made before)
  have room := cut.room
  have bound := Edit.deltaSumLe (madeEdits made before)
  have place := @movedSpan (deltaSum (madeEdits made before)) p exact.1 (by omega) (by omega)
  omega

theorem cutCovered (todo : p.id ∉ made) {target : Bytes}
    (reached : target = Edit.onePassFrom 0 pristine (madeEdits made (before ++ p :: after))) :
    (target.drop (moved (deltaSum (madeEdits made before)) p).edit.span.start).take p.edit.span.size =
      (pristine.drop p.edit.span.start).take p.edit.span.size := by
  have exact := (cutExact cut).1
  have stop := Edit.inOrderLe cut.tail
  have length : (between pristine p.edit.span.start p.edit.span.stop).length = p.edit.span.size := by
    rw [betweenLength stop]
    omega
  have window : between pristine p.edit.span.start p.edit.span.stop =
      (pristine.drop p.edit.span.start).take p.edit.span.size := by
    rw [between]
    congr 1
    omega
  rw [reached, cutTarget cut made todo, (cutMoved cut made).1, List.drop_left, List.take_left' length, window]

theorem cutApply (todo : p.id ∉ made) {target : Stream}
    (reached : target.bytes = Edit.onePassFrom 0 pristine (madeEdits made (before ++ p :: after))) :
    (target.splice (moved (deltaSum (madeEdits made before)) p).edit).1 = .ok p.edit.delta ∧
      (target.splice (moved (deltaSum (madeEdits made before)) p).edit).2.bytes =
        Edit.onePassFrom 0 pristine (madeEdits (p.id :: made) (before ++ p :: after)) := by
  have exact := (cutExact cut).1
  have inside := Edit.inOrderLe cut.tail
  have place := cutMoved cut made
  have length : (between pristine p.edit.span.start p.edit.span.stop).length = p.edit.span.size := by
    rw [betweenLength inside]
    omega
  have bytes := reached.trans (cutTarget cut made todo)
  have stop : (moved (deltaSum (madeEdits made before)) p).edit.span.stop ≤ target.size := by
    rw [Stream.size, bytes, place.2]
    simp only [List.length_append, length]
    omega
  have spliced := Stream.spliceInside stop
  refine ⟨spliced.1, ?_⟩
  have content : (moved (deltaSum (madeEdits made before)) p).edit.content = p.edit.content := rfl
  rw [spliced.2, bytes, cutTargetMade cut made, place.1, place.2, content, List.take_left, ← length,
    List.drop_length_add_append, List.drop_left, List.append_assoc]

end Target

section At
variable {set : EditSet} {before after : List Pending} {p : Pending} (split : set.pending = before ++ p :: after)
  (others : ∀ q ∈ before, q.id ≠ p.id)
include split others

theorem cutAt : set.pending.takeWhile (·.id != p.id) = before ∧ set.pending.drop before.length = p :: after := by
  constructor
  · rw [split, List.takeWhile_append_of_pos fun q mem => by simpa using others q mem]
    simp
  · rw [split, List.drop_left]

theorem applyAt {target reached : Stream} {delta : Int} (spliced : target.splice p.edit = (.ok delta, reached)) :
    set.apply p.id target = shiftAfter before after delta reached := by
  obtain ⟨first, rest⟩ := cutAt split others
  simp only [apply, first, rest, spliced]

end At

end KeepBlame.EditSet
