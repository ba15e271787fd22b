import KeepBlame.EditSet

/-! Splicing one edit into a stream: reading the tail, writing over it and cutting off the rest put the content in
place of the span and leave the bytes before and after it alone. -/
namespace KeepBlame

namespace Span

theorem startLeLimit (s : Span) : s.start ≤ limit := by
  have := s.offset.toNat_lt
  simp only [start, limit]
  omega

theorem startLeStop (s : Span) : s.start ≤ s.stop := by
  have := s.startLeLimit
  simp only [stop]
  omega

theorem stopExact {s : Span} (fits : s.start + s.size ≤ limit) : s.stop = s.start + s.size := by
  simp only [stop]
  omega

end Span

namespace Stream

theorem writeBytes {s : Stream} (inside : s.position ≤ s.size) (data : Bytes) :
    (s.write data).bytes = s.bytes.take s.position ++ data ++ s.bytes.drop (s.position + data.length) := by
  have gap : s.position - s.size = 0 := by omega
  simp only [write, gap, List.replicate_zero, List.append_nil]

theorem writeBefore {s : Stream} (inside : s.position ≤ s.size) (data : Bytes) :
    (s.write data).bytes.take (s.write data).position = s.bytes.take s.position ++ data := by
  have length : (s.bytes.take s.position ++ data).length = (s.write data).position := by
    have size : s.size = s.bytes.length := rfl
    simp only [write, List.length_append, List.length_take]
    omega
  rw [writeBytes inside, ← length, List.take_left]

theorem writeInside {s : Stream} (inside : s.position ≤ s.size) (data : Bytes) :
    (s.write data).position ≤ (s.write data).size := by
  have size : s.size = s.bytes.length := rfl
  change _ ≤ (s.write data).bytes.length
  rw [writeBytes inside]
  simp only [write, List.length_append, List.length_take]
  omega

theorem spliceInside {e : Edit} {s : Stream} (inside : e.span.stop ≤ s.size) :
    (s.splice e).1 = .ok e.delta ∧
      (s.splice e).2.bytes = s.bytes.take e.span.start ++ e.content ++ s.bytes.drop e.span.stop := by
  have order := e.span.startLeStop
  have within : ¬ e.span.stop > s.seekEnd.size := Nat.not_lt.mpr inside
  unfold splice
  simp only [if_neg within, true_and]
  -- What is cut off in the end stands behind the position, so only what each write leaves before it counts.
  let opened : Stream := ⟨s.bytes, e.span.start⟩
  have start : opened.position ≤ opened.size := Nat.le_trans order inside
  change ((opened.write e.content).write (s.bytes.drop e.span.stop)).bytes.take
    ((opened.write e.content).write (s.bytes.drop e.span.stop)).position = _
  rw [writeBefore (writeInside start _), writeBefore start]

theorem spliceOutside {e : Edit} {s : Stream} (beyond : s.size < e.span.stop) :
    s.splice e = (.error (.outOfBounds e.span s.size), s.seekEnd) := by
  unfold splice
  exact if_pos beyond

theorem insideExact {e : Edit} {s : Stream} (small : s.size < 0x8000000000000000) (inside : e.span.stop ≤ s.size) :
    e.span.stop = e.span.start + e.span.size := by
  unfold Span.stop Span.limit at *
  omega

theorem deltaInside {e : Edit} {s : Stream} (small : s.size < 0x8000000000000000)
    (short : e.content.length < 0x8000000000000000) (inside : e.span.stop ≤ s.size) :
    e.delta = e.content.length - e.span.size := by
  have ends := insideExact small inside
  unfold Edit.delta Edit.sizeLimit
  omega

theorem spliceReplaces (s : Stream) (e : Edit) (small : s.size < 0x8000000000000000)
    (short : e.content.length < 0x8000000000000000) :
    (e.span.stop ≤ s.size → e.span.start + e.span.size ≤ s.size ∧
      (s.splice e).2.bytes = s.bytes.take e.span.start ++ e.content ++ s.bytes.drop (e.span.start + e.span.size) ∧
      (s.splice e).1 = .ok ((s.splice e).2.size - s.size : Int)) ∧
    (s.size < e.span.stop →
      (s.splice e).1 = .error (.outOfBounds e.span s.size) ∧ (s.splice e).2.bytes = s.bytes) := by
  constructor
  · intro inside
    obtain ⟨result, bytes⟩ := spliceInside inside
    have ends := insideExact small inside
    rw [ends] at inside bytes
    have grown : ((s.splice e).2.size : Int) - s.size = e.content.length - e.span.size := by
      have length : s.size = s.bytes.length := rfl
      change (((s.splice e).2.bytes.length : Nat) : Int) - _ = _
      rw [bytes]
      simp only [List.length_append, List.length_take, List.length_drop]
      omega
    rw [grown, ← deltaInside small short (ends ▸ inside)]
    exact ⟨inside, bytes, result⟩
  · intro beyond
    rw [spliceOutside beyond]
    exact ⟨rfl, rfl⟩

theorem growsAndRefuses :
    let s : Stream := ⟨[97, 98, 99], 9⟩
    (s.splice (.ofNats 1 1 [120, 121, 122])).2.bytes = [97, 120, 121, 122, 99] ∧
    (s.splice (.ofNats 1 1 [120, 121, 122])).1 = .ok 2 ∧
    (s.splice (.ofNats 0xfffffffffffffffe 5 [120])).1 =
      .error (.outOfBounds ⟨0xfffffffffffffffe, 5⟩ 3) := by
  intro s
  obtain ⟨_, bytes, result⟩ := (spliceReplaces s (.ofNats 1 1 [120, 121, 122]) (by decide) (by decide)).1 (by decide)
  have refused := (spliceReplaces s (.ofNats 0xfffffffffffffffe 5 [120]) (by decide) (by decide)).2 (by decide)
  refine ⟨bytes, ?_, refused.1⟩
  rw [result]
  change Except.ok (((s.splice (.ofNats 1 1 [120, 121, 122])).2.bytes.length : Int) - s.size) = _
  rw [bytes]
  rfl

end Stream
end KeepBlame
