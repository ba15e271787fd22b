import KeepBlame.Proofs.Trim

/-! Trimmed edits are least. What trimming leaves of an edit agrees with the file neither in its first byte nor in its
last, and so lies inside every other edit with the same result, unless it only inserts or only deletes. -/
namespace KeepBlame.Edit

theorem commonStartCons (x y : UInt8) (xs ys : Bytes) :
    commonStart (x :: xs) (y :: ys) = if x = y then commonStart xs ys + 1 else 0 := by
  by_cases same : x = y
  · simp [commonStart, same]
  · simp [commonStart, same]

theorem commonStartDrop (a b : Bytes) : commonStart (a.drop (commonStart a b)) (b.drop (commonStart a b)) = 0 := by
  induction a generalizing b with
  | nil => simp [commonStart]
  | cons x xs ih =>
    cases b with
    | nil => simp [commonStart]
    | cons y ys =>
      rw [commonStartCons]
      split
      · exact ih ys
      · rename_i other
        rw [List.drop_zero, List.drop_zero, commonStartCons, if_neg other]

theorem commonStartTakeLe (a b : Bytes) (m n : Nat) : commonStart (a.take m) (b.take n) ≤ commonStart a b := by
  induction a generalizing b m n with
  | nil => simp [commonStart]
  | cons x xs ih =>
    cases b with
    | nil => simp [commonStart]
    | cons y ys =>
      cases m with
      | zero => simp [commonStart]
      | succ m =>
        cases n with
        | zero => simp [commonStart]
        | succ n =>
          rw [List.take_succ_cons, List.take_succ_cons, commonStartCons, commonStartCons]
          split
          · exact Nat.succ_le_succ (ih ys m n)
          · exact Nat.le_refl 0

structure Tight (replaced content : Bytes) : Prop where
  start : commonStart replaced content = 0
  stop : commonStart replaced.reverse content.reverse = 0

theorem tightReverse {replaced content : Bytes} (tight : Tight replaced content) :
    Tight replaced.reverse content.reverse :=
  ⟨tight.stop, by rw [List.reverse_reverse, List.reverse_reverse]; exact tight.start⟩

theorem trimTight {pristine : Bytes} {e : Edit} (inside : Inside pristine e) :
    Tight (between pristine (e.trim pristine).span.start (e.trim pristine).span.stop) (e.trim pristine).content := by
  obtain ⟨head, tail, cut⟩ := trimCut inside
  have fits := cut.fits
  have length := insideLength inside
  have front := insideShort inside (Nat.le_trans (Nat.le_add_left tail head) fits)
  have ends := cut.ends
  have starts := cut.starts
  rw [← front] at starts
  rw [cut.start, cut.stop, ← dropBetween, ← front, cut.content]
  generalize between pristine e.span.start e.span.stop = replaced at length ends starts ⊢
  constructor
  · rw [← starts]
    exact commonStartDrop _ _
  · -- Cutting at the start leaves a part of what was left by cutting at the end, where nothing more agreed.
    have tailLe := (commonStartLe replaced.reverse e.content.reverse).2
    rw [ends, List.length_reverse] at tailLe
    have none : commonStart (replaced.take (replaced.length - tail)).reverse
        (e.content.take (e.content.length - tail)).reverse = 0 := by
      rw [List.reverse_take, List.reverse_take, Nat.sub_sub_self (by omega), Nat.sub_sub_self tailLe, ← ends]
      exact commonStartDrop _ _
    rw [List.reverse_drop, List.reverse_drop]
    exact Nat.le_zero.mp (none ▸ commonStartTakeLe _ _ _ _)

theorem tightBefore {before before' replaced content : Bytes} {after after' more more' : Bytes}
    (tight : Tight replaced content) (full : replaced ≠ [] ∧ content ≠ [])
    (file : before ++ (replaced ++ after) = before' ++ more) (result : before ++ (content ++ after') = before' ++ more') :
    before'.length ≤ before.length := by
  obtain ⟨r, rs, rfl⟩ := List.exists_cons_of_ne_nil full.1
  obtain ⟨c, cs, rfl⟩ := List.exists_cons_of_ne_nil full.2
  by_contra longer
  -- Otherwise the byte behind `before` is the same in both texts.
  have old := congrArg (fun bytes => bytes[before.length]?) file
  have new := congrArg (fun bytes => bytes[before.length]?) result
  simp only [List.cons_append, List.getElem?_append_right (Nat.le_refl _), Nat.sub_self, List.getElem?_cons_zero,
    List.getElem?_append_left (Nat.lt_of_not_le longer)] at old new
  have same : r = c := Option.some.inj (old.trans new.symm)
  have start := tight.start
  rw [commonStartCons, if_pos same] at start
  exact absurd start (Nat.succ_ne_zero _)

theorem tightLeast {before replaced after content before' replaced' after' content' : Bytes}
    (tight : Tight replaced content) (file : before ++ (replaced ++ after) = before' ++ (replaced' ++ after'))
    (result : before ++ (content ++ after) = before' ++ (content' ++ after')) :
    replaced.length ≤ replaced'.length ∧ content.length ≤ content'.length := by
  have old := congrArg List.length file
  have new := congrArg List.length result
  simp only [List.length_append] at old new
  by_cases full : replaced ≠ [] ∧ content ≠ []
  · have early := tightBefore tight full file result
    have late : after'.length ≤ after.length := by
      have ended : replaced.reverse ≠ [] ∧ content.reverse ≠ [] := by simpa using full
      have file' := congrArg List.reverse file
      have result' := congrArg List.reverse result
      simp only [List.reverse_append, List.append_assoc] at file' result'
      simpa using tightBefore (tightReverse tight) ended file' result'
    omega
  · -- A mere insertion or deletion is as long as the two texts differ in length.
    have nothing : replaced.length = 0 ∨ content.length = 0 := by
      simp only [List.length_eq_zero_iff]
      tauto
    omega

def spliced (pristine : Bytes) (e : Edit) : Bytes := ((Stream.mk pristine 0).splice e).2.bytes

theorem splicedIs {pristine : Bytes} {e : Edit} (inside : e.span.stop ≤ pristine.length) :
    spliced pristine e = pristine.take e.span.start ++ (e.content ++ pristine.drop e.span.stop) := by
  rw [← List.append_assoc]
  exact (Stream.spliceInside inside).2

theorem pristineIs (pristine : Bytes) (s : Span) :
    pristine = pristine.take s.start ++ (between pristine s.start s.stop ++ pristine.drop s.stop) := by
  rw [betweenDrop s.startLeStop, List.take_append_drop]

theorem trimmedSpliced {pristine : Bytes} {e t : Edit} {head tail : Bytes} (inside : e.span.stop ≤ pristine.length)
    (trimmed : Trimmed pristine e t head tail) : spliced pristine t = spliced pristine e := by
  have within := trimmedWithin trimmed
  have before : pristine.take t.span.start = pristine.take e.span.start ++ head := by
    have front := @betweenAppend pristine 0 _ _ (Nat.zero_le _) within.1
    rw [trimmed.before] at front
    simpa [between] using front.symm
  have after : pristine.drop t.span.stop = tail ++ pristine.drop e.span.stop := by
    rw [← trimmed.after, betweenDrop within.2]
  rw [splicedIs inside, splicedIs (Nat.le_trans within.2 inside), before, after, trimmed.content]
  simp only [List.append_assoc]

theorem trimInside {pristine : Bytes} {e : Edit} (inside : Inside pristine e) : Inside pristine (e.trim pristine) := by
  obtain ⟨head, tail, trimmed⟩ := trimTrimmed inside
  have within := trimmedWithin trimmed
  have size := trimmed.size
  have bounds := insideStop inside
  exact ⟨by omega, inside.positions⟩

theorem trimShortest {pristine : Bytes} {e f : Edit} (inside : Inside pristine e) (other : Inside pristine f)
    (same : spliced pristine f = spliced pristine e) :
    (e.trim pristine).span.size ≤ f.span.size ∧ (e.trim pristine).content.length ≤ f.content.length := by
  obtain ⟨head, tail, trimmed⟩ := trimTrimmed inside
  have left := trimInside inside
  have result := (trimmedSpliced (insideStop inside).2 trimmed).trans same.symm
  rw [splicedIs (insideStop left).2, splicedIs (insideStop other).2] at result
  have file := (pristineIs pristine (e.trim pristine).span).symm.trans (pristineIs pristine f.span)
  have least := tightLeast (trimTight inside) file result
  rwa [insideLength left, insideLength other] at least

theorem trimNoopIff {pristine : Bytes} {e : Edit} (inside : Inside pristine e) :
    (e.trim pristine).isNoop = true ↔ spliced pristine e = pristine := by
  obtain ⟨head, tail, trimmed⟩ := trimTrimmed inside
  have same := trimmedSpliced (insideStop inside).2 trimmed
  have left := insideStop (trimInside inside)
  simp only [isNoop, Bool.and_eq_true, beq_iff_eq, List.isEmpty_iff]
  constructor
  · rintro ⟨size, content⟩
    have place : (e.trim pristine).span.stop = (e.trim pristine).span.start := by omega
    rw [← same, splicedIs left.2, content, place, List.nil_append, List.take_append_drop]
  · intro unchanged
    have nothing : Inside pristine ⟨⟨0, 0⟩, []⟩ := ⟨Nat.zero_le _, inside.positions⟩
    have still : spliced pristine ⟨⟨0, 0⟩, []⟩ = pristine := splicedIs (insideStop nothing).2
    have least := trimShortest inside nothing (still.trans unchanged.symm)
    exact ⟨Nat.le_zero.mp least.1, List.length_eq_zero_iff.mp (Nat.le_zero.mp least.2)⟩

theorem trimOfTight {pristine : Bytes} {e : Edit} (inside : Inside pristine e)
    (tight : Tight (between pristine e.span.start e.span.stop) e.content) : e.trim pristine = e := by
  obtain ⟨head, tail, cut⟩ := trimCut inside
  obtain rfl : 0 = tail := tight.stop.symm.trans cut.ends
  have starts := cut.starts
  rw [Nat.sub_zero, Nat.sub_zero, List.take_length, tight.start] at starts
  subst starts
  have start := cut.start
  have size := cut.size
  have content := cut.content
  simp only [Nat.sub_zero, Nat.add_zero, List.take_length, List.drop_zero] at start size content
  generalize e.trim pristine = t at start size content
  obtain ⟨⟨offset, length⟩, bytes⟩ := t
  obtain ⟨⟨offset', length'⟩, bytes'⟩ := e
  cases UInt64.toNat_inj.mp start
  cases UInt64.toNat_inj.mp size
  cases content
  rfl

theorem trimIsLeast (pristine : Bytes) (e : Edit) :
    (Inside pristine e →
      (e.span.start ≤ (e.trim pristine).span.start ∧
        (e.trim pristine).span.start + (e.trim pristine).span.size ≤ e.span.start + e.span.size) ∧
      spliced pristine (e.trim pristine) = spliced pristine e ∧
      (∀ f, Inside pristine f → spliced pristine f = spliced pristine e →
        (e.trim pristine).span.size ≤ f.span.size ∧ (e.trim pristine).content.length ≤ f.content.length) ∧
      ((e.trim pristine).isNoop = true ↔ spliced pristine e = pristine) ∧
      (e.trim pristine).trim pristine = e.trim pristine) ∧
    (pristine.length < e.span.stop → e.trim pristine = e) := by
  constructor
  · intro inside
    obtain ⟨head, tail, trimmed⟩ := trimTrimmed inside
    have bounds := insideStop inside
    have within := trimmedWithin trimmed
    have size := trimmed.size
    exact ⟨⟨within.1, by omega⟩, trimmedSpliced bounds.2 trimmed, fun f other same => trimShortest inside other same,
      trimNoopIff inside, trimOfTight (trimInside inside) (trimTight inside)⟩
  · intro beyond
    rw [trim, if_neg (Nat.not_le.mpr beyond)]

theorem doubledByteLeast :
    Inside [120, 97, 97, 121] (ofNats 1 2 [97]) ∧
      (ofNats 1 2 [97]).trim [120, 97, 97, 121] = ofNats 1 1 [] ∧
      ∀ f, Inside [120, 97, 97, 121] f → spliced [120, 97, 97, 121] f = [120, 97, 121] → 1 ≤ f.span.size := by
  have inside : Inside [120, 97, 97, 121] (ofNats 1 2 [97]) := ⟨by decide, by decide⟩
  have least := ((trimIsLeast [120, 97, 97, 121] (ofNats 1 2 [97])).1 inside).2.2.1
  have trimmed : (ofNats 1 2 [97]).trim [120, 97, 97, 121] = ofNats 1 1 [] := by decide
  refine ⟨inside, trimmed, fun f other same => ?_⟩
  have shorter := (least f other (same.trans (by decide))).1
  rwa [trimmed] at shorter

end KeepBlame.Edit
