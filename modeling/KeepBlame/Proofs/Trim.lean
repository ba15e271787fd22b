import KeepBlame.Generation
import KeepBlame.Proofs.Accepted

/-! Trimming edits. A trimmed edit leaves out bytes that the content shares with the file at either end of its span, so
that trimming all edits of a file, which may make neighbours meet, changes nothing of what they do to it. -/
namespace KeepBlame.Edit

theorem commonStartTake (a b : Bytes) : a.take (commonStart a b) = b.take (commonStart a b) := by
  induction a generalizing b with
  | nil => simp [commonStart]
  | cons x xs ih =>
    cases b with
    | nil => simp [commonStart]
    | cons y ys =>
      by_cases same : x = y
      · have tail := ih ys
        simp only [commonStart] at tail
        simp [commonStart, same, tail]
      · simp [commonStart, same]

theorem commonStartLe (a b : Bytes) : commonStart a b ≤ a.length ∧ commonStart a b ≤ b.length := by
  have cut : commonStart a b ≤ (a.zip b).length := (List.takeWhile_sublist _).length_le
  rw [List.length_zip] at cut
  omega

theorem commonEnd (a b : Bytes) :
    a.drop (a.length - commonStart a.reverse b.reverse) = b.drop (b.length - commonStart a.reverse b.reverse) := by
  have same := congrArg List.reverse (commonStartTake a.reverse b.reverse)
  rwa [List.reverse_take, List.reverse_take, List.reverse_reverse, List.reverse_reverse, List.length_reverse,
    List.length_reverse] at same

structure Inside (pristine : Bytes) (e : Edit) : Prop where
  span : e.span.start + e.span.size ≤ pristine.length
  positions : pristine.length ≤ Span.limit

theorem insideStop {pristine : Bytes} {e : Edit} (inside : Inside pristine e) :
    e.span.stop = e.span.start + e.span.size ∧ e.span.stop ≤ pristine.length := by
  have span := inside.span
  have positions := inside.positions
  have stop := Span.stopExact (s := e.span) (by omega)
  omega

theorem insideLength {pristine : Bytes} {e : Edit} (inside : Inside pristine e) :
    (between pristine e.span.start e.span.stop).length = e.span.size := by
  have bounds := insideStop inside
  rw [betweenLength bounds.2]
  omega

theorem insideShort {pristine : Bytes} {e : Edit} (inside : Inside pristine e) {n : Nat} (fits : n ≤ e.span.size) :
    (between pristine e.span.start e.span.stop).take ((between pristine e.span.start e.span.stop).length - n) =
      between pristine e.span.start (e.span.stop - n) := by
  have bounds := insideStop inside
  rw [insideLength inside, takeBetween (by omega)]
  congr 1
  omega

structure Trimmed (pristine : Bytes) (e t : Edit) (head tail : Bytes) : Prop where
  content : e.content = head ++ t.content ++ tail
  start : t.span.start = e.span.start + head.length
  stop : t.span.stop + tail.length = e.span.stop
  size : t.span.stop = t.span.start + t.span.size
  before : between pristine e.span.start t.span.start = head
  after : between pristine t.span.stop e.span.stop = tail

theorem cutSpan {s : Span} {head tail : Nat} (fits : s.start + s.size ≤ Span.limit) (cut : head + tail ≤ s.size) :
    (Span.mk (s.offset + head.toUInt64) (s.length - (tail + head).toUInt64)).start = s.start + head ∧
      (Span.mk (s.offset + head.toUInt64) (s.length - (tail + head).toUInt64)).size = s.size - (tail + head) := by
  simp only [Span.start, Span.size, Span.limit] at *
  have narrow : (tail + head).toUInt64.toNat = tail + head := by
    rw [Nat.toUInt64, UInt64.toNat_ofNat']
    omega
  constructor
  · rw [UInt64.toNat_add, Nat.toUInt64, UInt64.toNat_ofNat']
    omega
  · rw [UInt64.toNat_sub_of_le _ _ (by rw [UInt64.le_iff_toNat_le, narrow]; omega), narrow]

theorem commonEnds {replaced content : Bytes} {head tail : Nat}
    (tailIs : commonStart replaced.reverse content.reverse = tail)
    (headIs : commonStart (replaced.take (replaced.length - tail)) (content.take (content.length - tail)) = head) :
    head + tail ≤ replaced.length ∧
      content = replaced.take head ++ (content.take (content.length - tail)).drop head ++
        replaced.drop (replaced.length - tail) := by
  have tailLe := commonStartLe replaced.reverse content.reverse
  have headLe := commonStartLe (replaced.take (replaced.length - tail)) (content.take (content.length - tail))
  have starts := commonStartTake (replaced.take (replaced.length - tail)) (content.take (content.length - tail))
  have ends := commonEnd replaced content
  simp only [tailIs, headIs, List.length_reverse, List.length_take] at tailLe headLe starts ends
  have fits : head + tail ≤ replaced.length := by omega
  refine ⟨fits, ?_⟩
  rw [List.take_take, Nat.min_eq_left (by omega)] at starts
  rw [starts, List.take_append_drop, ends, List.take_append_drop]

/-- `t` is `e` less as many bytes at its ends as the content shares with the replaced bytes, counted at the end first. -/
structure Cut (pristine : Bytes) (e t : Edit) (head tail : Nat) : Prop where
  ends : commonStart (between pristine e.span.start e.span.stop).reverse e.content.reverse = tail
  starts : commonStart (between pristine e.span.start (e.span.stop - tail))
    (e.content.take (e.content.length - tail)) = head
  fits : head + tail ≤ e.span.size
  start : t.span.start = e.span.start + head
  stop : t.span.stop = e.span.stop - tail
  size : t.span.size = e.span.size - (tail + head)
  content : t.content = (e.content.take (e.content.length - tail)).drop head

theorem trimCut {pristine : Bytes} {e : Edit} (inside : Inside pristine e) :
    ∃ head tail, Cut pristine e (e.trim pristine) head tail := by
  have bounds := insideStop inside
  have positions := inside.positions
  have length := insideLength inside
  generalize tailIs : commonStart (between pristine e.span.start e.span.stop).reverse e.content.reverse = tail
  generalize headIs : commonStart ((between pristine e.span.start e.span.stop).take
    ((between pristine e.span.start e.span.stop).length - tail)) (e.content.take (e.content.length - tail)) = head
  have trimIs : e.trim pristine = ⟨⟨e.span.offset + head.toUInt64, e.span.length - (tail + head).toUInt64⟩,
      (e.content.take (e.content.length - tail)).drop head⟩ := by
    rw [← headIs, ← tailIs, trim, if_pos bounds.2]
    rfl
  have fits := (commonEnds tailIs headIs).1
  obtain ⟨start, size⟩ := @cutSpan e.span head tail (by omega) (by omega)
  have startIs : (e.trim pristine).span.start = e.span.start + head := by rw [trimIs, start]
  have sizeIs : (e.trim pristine).span.size = e.span.size - (tail + head) := by rw [trimIs, size]
  have stopIs : (e.trim pristine).span.stop = (e.trim pristine).span.start + (e.trim pristine).span.size :=
    Span.stopExact (by omega)
  rw [insideShort inside (by omega)] at headIs
  exact ⟨head, tail, tailIs, headIs, by omega, startIs, by omega, sizeIs, by rw [trimIs]⟩

theorem trimTrimmed {pristine : Bytes} {e : Edit} (inside : Inside pristine e) :
    ∃ head tail, Trimmed pristine e (e.trim pristine) head tail := by
  have bounds := insideStop inside
  have length := insideLength inside
  obtain ⟨head, tail, cut⟩ := trimCut inside
  have fits := cut.fits
  have start := cut.start
  have stop := cut.stop
  have size := cut.size
  have starts := cut.starts
  rw [← insideShort inside (by omega)] at starts
  have content := (commonEnds cut.ends starts).2
  rw [← cut.content, takeBetween (by omega), dropBetween] at content
  refine ⟨_, _, content, ?_, ?_, by omega, ?_, ?_⟩
  · rw [betweenLength (by omega)]
    omega
  · rw [betweenLength bounds.2]
    omega
  · rw [start]
  · congr 1
    omega

theorem trimmedWithin {pristine : Bytes} {e t : Edit} {head tail : Bytes} (h : Trimmed pristine e t head tail) :
    e.span.start ≤ t.span.start ∧ t.span.stop ≤ e.span.stop := by
  have start := h.start
  have stop := h.stop
  omega

theorem inOrderTrim {pristine : Bytes} {edits : List Edit} {a b : Nat} (order : InOrder a edits b)
    (inside : ∀ e ∈ edits, Inside pristine e) : InOrder a (edits.map (trim pristine)) b := by
  induction edits generalizing a with
  | nil => exact order
  | cons e rest ih =>
    obtain ⟨head, tail, trimmed⟩ := trimTrimmed (inside e List.mem_cons_self)
    have within := trimmedWithin trimmed
    have rest' := ih order.2 fun x mem => inside x (List.mem_cons_of_mem e mem)
    exact ⟨Nat.le_trans order.1 within.1, inOrderWiden within.2 (Nat.le_refl b) rest'⟩

theorem onePassTrim {pristine : Bytes} {edits : List Edit} {a b : Nat} (order : InOrder a edits b)
    (inside : ∀ e ∈ edits, Inside pristine e) :
    onePassFrom a pristine (edits.map (trim pristine)) = onePassFrom a pristine edits := by
  induction edits generalizing a with
  | nil => rfl
  | cons e rest ih =>
    obtain ⟨head, tail, trimmed⟩ := trimTrimmed (inside e List.mem_cons_self)
    have within := trimmedWithin trimmed
    have later := inOrderWiden within.2 (Nat.le_refl b) order.2
    have rest' := ih later fun x mem => inside x (List.mem_cons_of_mem e mem)
    calc onePassFrom a pristine ((e :: rest).map (trim pristine))
        = between pristine a (e.trim pristine).span.start ++ (e.trim pristine).content ++
            onePassFrom (e.trim pristine).span.stop pristine rest := by rw [← rest']; rfl
      _ = (between pristine a e.span.start ++ head) ++ (e.trim pristine).content ++
            (tail ++ onePassFrom e.span.stop pristine rest) := by
          rw [onePassGap within.2 order.2, trimmed.after, ← betweenAppend order.1 within.1, trimmed.before]
      _ = between pristine a e.span.start ++ e.content ++ onePassFrom e.span.stop pristine rest := by
          rw [trimmed.content]
          simp only [List.append_assoc]

theorem onePassReal {pristine : Bytes} {edits : List Edit} {a b : Nat} (order : InOrder a edits b) :
    onePassFrom a pristine (edits.filter (!·.isNoop)) = onePassFrom a pristine edits := by
  induction edits generalizing a with
  | nil => rfl
  | cons e rest ih =>
    cases still : e.isNoop with
    | false =>
      rw [List.filter_cons_of_pos (by simp [still])]
      simp only [onePassFrom, ih order.2]
    | true =>
      have later := inOrderWiden e.span.startLeStop (Nat.le_refl b) order.2
      rw [List.filter_cons_of_neg (by simp [still]), ih (inOrderWiden order.1 (Nat.le_refl b) later)]
      simp only [isNoop, Bool.and_eq_true, beq_iff_eq, List.isEmpty_iff] at still
      have same : e.span.stop = e.span.start := by
        have := e.span.startLeStop
        simp only [Span.stop, still.1] at *
        omega
      rw [onePassGap order.1 later]
      simp only [onePassFrom, still.2, List.append_nil, same, between]

theorem inOrderPairwise {edits : List Edit} {a b : Nat} (order : InOrder a edits b) :
    edits.Pairwise fun x y => x.span.stop ≤ y.span.start := by
  induction edits generalizing a with
  | nil => exact .nil
  | cons e rest ih =>
    refine List.pairwise_cons.mpr ⟨?_, ih order.2⟩
    intro x mem
    exact (inOrderStop order.2 mem).1

theorem trimNoop {pristine : Bytes} {e : Edit} (inside : Inside pristine e) (still : e.isNoop = true) :
    (e.trim pristine).isNoop = true := by
  obtain ⟨head, tail, trimmed⟩ := trimTrimmed inside
  have content := trimmed.content
  have bounds := insideStop inside
  have sizes := trimmed.size
  have start := trimmed.start
  have stop := trimmed.stop
  simp only [isNoop, Bool.and_eq_true, beq_iff_eq, List.isEmpty_iff] at still ⊢
  rw [still.2] at content
  refine ⟨by omega, ?_⟩
  simp_all

end KeepBlame.Edit

namespace KeepBlame.Generator
open Edit (InOrder Inside)

theorem spanLt {a b : Span} : a < b ↔ a.start < b.start ∨ (a.start = b.start ∧ a.size < b.size) := by
  change a.offset < b.offset ∨ (a.offset = b.offset ∧ a.length < b.length) ↔ _
  simp only [UInt64.lt_iff_toNat_lt, ← UInt64.toNat_inj, Span.start, Span.size]

theorem trimAllReal {pristine : Bytes} {proposed : List Edit} {e : Edit} (mem : e ∈ trimAll pristine proposed) :
    e.isNoop = false := by
  simpa using (List.mem_filter.mp mem).2

theorem trimAllInside {pristine : Bytes} {proposed : List Edit} (inside : ∀ e ∈ proposed, Inside pristine e) {t : Edit}
    (mem : t ∈ trimAll pristine proposed) : t.span.stop = t.span.start + t.span.size ∧ t.span.stop ≤ pristine.length := by
  obtain ⟨e, given, rfl⟩ := List.mem_map.mp (List.mem_filter.mp mem).1
  obtain ⟨head, tail, trimmed⟩ := Edit.trimTrimmed (inside e given)
  have bounds := Edit.insideStop (inside e given)
  exact ⟨trimmed.size, Nat.le_trans (Edit.trimmedWithin trimmed).2 bounds.2⟩

theorem trimAllContent {pristine : Bytes} {proposed : List Edit} (inside : ∀ e ∈ proposed, Inside pristine e) :
    Edit.contentSize (trimAll pristine proposed) ≤ Edit.contentSize proposed := by
  refine Nat.le_trans (EditSet.contentSizeSublist List.filter_sublist) ?_
  induction proposed with
  | nil => exact Nat.le_refl 0
  | cons e rest ih =>
    obtain ⟨head, tail, trimmed⟩ := Edit.trimTrimmed (inside e List.mem_cons_self)
    have less := ih fun x mem => inside x (List.mem_cons_of_mem e mem)
    have content := congrArg List.length trimmed.content
    simp only [Edit.contentSize, List.map_cons, List.sum_cons, List.length_append] at less content ⊢
    omega

theorem trimAllPerm {pristine : Bytes} {proposed : List Edit} {set : EditSet}
    (accepted : EditSet.ofEdits proposed = .ok set) (inside : ∀ e ∈ proposed, Inside pristine e) :
    (trimAll pristine proposed).Perm ((set.edits.map (Edit.trim pristine)).filter (!·.isNoop)) := by
  have real : trimAll pristine proposed =
      ((proposed.filter (!·.isNoop)).map (Edit.trim pristine)).filter (!·.isNoop) := by
    rw [trimAll, List.filter_map, List.filter_map, List.filter_filter]
    congr 1
    refine List.filter_congr fun e mem => ?_
    cases still : e.isNoop with
    | false => simp
    | true => simp [Edit.trimNoop (inside e mem) still]
  rw [real, EditSet.acceptedEdits accepted]
  exact ((Ordered.sortByPerm _).symm.map _).filter _

def insertions (edits : List Edit) : List Nat := (edits.filter (·.span.size = 0)).map (·.span.start)

theorem insertionsNodup {edits : List Edit} :
    (insertions edits).Nodup ↔
      edits.Pairwise fun x y => x.span.size = 0 → y.span.size = 0 → x.span.start ≠ y.span.start := by
  rw [insertions, List.Nodup, List.pairwise_map, List.pairwise_filter]
  simp only [decide_eq_true_eq]

theorem ascendingOfApart {edits : List Edit} {a b : Nat} (order : InOrder a edits b)
    (exact : ∀ e ∈ edits, e.span.stop = e.span.start + e.span.size) (apart : (insertions edits).Nodup) :
    edits.Pairwise fun x y => x.span < y.span := by
  refine ((Edit.inOrderPairwise order).and (insertionsNodup.mp apart)).imp_of_mem ?_
  intro x y left _ both
  have size := exact x left
  rw [spanLt]
  by_cases same : x.span.start = y.span.start
  · -- Where two edits start together, the first is an insertion and so the second is none.
    have first : x.span.size = 0 := by omega
    have second : y.span.size ≠ 0 := fun zero => both.2 first zero same
    exact .inr ⟨same, by omega⟩
  · exact .inl (by omega)

theorem apartOfAscending {edits : List Edit} (ascending : edits.Pairwise fun x y => x.span < y.span) :
    (insertions edits).Nodup := by
  refine insertionsNodup.mpr (ascending.imp ?_)
  intro x y less first second same
  rw [spanLt] at less
  omega

theorem apartOfAccepted {edits : List Edit} {set : EditSet} (ok : EditSet.ofEdits edits = .ok set)
    (real : ∀ e ∈ edits, e.isNoop = false) : (insertions edits).Nodup := by
  have apart := apartOfAscending (EditSet.acceptedAscending ok)
  exact (((EditSet.acceptedPerm ok real).filter _).map _).nodup_iff.mp apart

section Lists
variable {pristine : Bytes} {proposed : List Edit} {set : EditSet} (accepted : EditSet.ofEdits proposed = .ok set)
  (inside : ∀ e ∈ proposed, Inside pristine e)
include accepted inside

theorem insideInOrder : InOrder 0 set.edits pristine.length :=
  EditSet.acceptedInOrder accepted fun e mem => (Edit.insideStop (inside e mem)).2

theorem acceptedInside : ∀ e ∈ set.edits, Inside pristine e :=
  fun e mem => inside e (EditSet.acceptedReal accepted mem).1

theorem trimmedInOrder :
    InOrder 0 ((set.edits.map (Edit.trim pristine)).filter (!·.isNoop)) pristine.length :=
  Edit.inOrderSublist List.filter_sublist
    (Edit.inOrderTrim (insideInOrder accepted inside) (acceptedInside accepted inside))

theorem trimmedOnePass :
    Edit.onePassFrom 0 pristine ((set.edits.map (Edit.trim pristine)).filter (!·.isNoop)) =
      Edit.onePass pristine proposed := by
  have order := insideInOrder accepted inside
  rw [Edit.onePassReal (Edit.inOrderTrim order (acceptedInside accepted inside)),
    Edit.onePassTrim order (acceptedInside accepted inside), EditSet.onePassWhole accepted]

theorem trimmedAccepted (apart : (insertions (trimAll pristine proposed)).Nodup) :
    ∃ trimmed, EditSet.ofEdits (trimAll pristine proposed) = .ok trimmed ∧
      trimmed.edits = (set.edits.map (Edit.trim pristine)).filter (!·.isNoop) := by
  have perm := trimAllPerm accepted inside
  have order := trimmedInOrder accepted inside
  have apart' : (insertions ((set.edits.map (Edit.trim pristine)).filter (!·.isNoop))).Nodup :=
    ((perm.filter _).map _).nodup_iff.mp apart
  have exact := fun t mem => (trimAllInside (acceptedInside accepted inside) (t := t) mem).1
  have ascending := ascendingOfApart order exact apart'
  exact EditSet.ofEditsAscending perm ascending (Edit.inOrderPairwise order) fun e => trimAllReal

end Lists

end KeepBlame.Generator
