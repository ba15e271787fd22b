import KeepBlame.Apply
import KeepBlame.Proofs.Remaining

/-! Making edits one at a time. After any selection of the edits has been made, in whatever order, the target is the
one-pass application of exactly these. -/
namespace KeepBlame.EditSet
open Edit (InOrder contentSize deltaSum)

structure Reached (pristine : Bytes) (set : EditSet) (made : List Span) (now : EditSet) (target : Stream) : Prop where
  left : now.pending = remaining made 0 set.pending
  bytes : target.bytes = Edit.onePassFrom 0 pristine (madeEdits made set.pending)

theorem remainingCut {before after : List Pending} {p : Pending} {made : List Span} (todo : p.id ∉ made) :
    remaining made 0 (before ++ p :: after) =
      remaining made 0 before ++ moved (deltaSum (madeEdits made before)) p ::
        remaining made (deltaSum (madeEdits made before)) after := by
  rw [remainingAppend, Int.zero_add]
  simp only [remaining, todo, if_false]

theorem remainingCutMade {pristine : Bytes} {before after : List Pending} {p : Pending} {made : List Span}
    (cut : Cut pristine before p after) :
    remaining (p.id :: made) 0 (before ++ p :: after) =
      remaining made 0 before ++ remaining made (deltaSum (madeEdits made before) + p.edit.delta) after := by
  rw [remainingAppend, Int.zero_add, madeInsert fun q mem => cut.others q (.inl mem),
    remainingInsert fun q mem => cut.others q (.inl mem)]
  simp only [remaining, List.mem_cons, true_or, if_true]
  rw [remainingInsert fun q mem => cut.others q (.inr mem)]

theorem shiftAfterCut {pristine : Bytes} {before after : List Pending} {p : Pending} {made : List Span}
    (cut : Cut pristine before p after)
    (order : InOrder 0 ((before ++ p :: after).map Pending.edit) pristine.length) (target : Stream) :
    shiftAfter (remaining made 0 before) (remaining made (deltaSum (madeEdits made before)) after) p.edit.delta target =
      .made p.edit.delta ⟨remaining (p.id :: made) 0 (before ++ p :: after)⟩ target := by
  rw [remainingCutMade cut]
  unfold shiftAfter
  split
  · rename_i still
    rw [still, Int.add_zero]
  · have exact := cutExact cut
    have length := cutHeadLength cut made
    have size := contentSizeSublist (madeSublist made before)
    have bound := Edit.deltaSumLe (madeEdits made before)
    have room := cut.room
    have shifted := @shiftAllRemaining made (deltaSum (madeEdits made before)) p.edit.delta _ _ after cut.tail
      (by omega) (by omega) (by omega) (by omega) (by omega)
    have ordered := @remainingInOrder (p.id :: made) 0 _ _ _ order (by omega) (by omega)
      (by
        rw [List.map_append, List.map_cons, contentSizeAppend]
        simp only [contentSize, List.map_cons, List.sum_cons] at room ⊢
        omega)
    rw [remainingCutMade cut] at ordered
    simp only [shifted, inOrderTrue ordered, if_true]

theorem applyReached {pristine : Bytes} {set now : EditSet} {made : List Span} {p : Pending} {target : Stream}
    (ready : Ready pristine set) (state : Reached pristine set made now target) (found : p ∈ set.pending)
    (todo : p.id ∉ made) :
    ∃ next reached, now.apply p.id target = .made (p.edit.content.length - p.edit.span.size) next reached ∧
      Reached pristine set (p.id :: made) next reached := by
  obtain ⟨before, after, split⟩ := List.append_of_mem found
  have cut := readyCut ready split
  have order := ready.inside
  rw [edits, split] at order
  have left := state.left
  have bytes := state.bytes
  rw [split] at left bytes
  rw [remainingCut todo] at left
  have others : ∀ q ∈ remaining made 0 before, q.id ≠ p.id := by
    intro q mem same
    have named : q.id ∈ (remaining made 0 before).map Pending.id := List.mem_map_of_mem mem
    rw [remainingIds] at named
    obtain ⟨r, found, named⟩ := List.mem_map.mp (List.mem_filter.mp named).1
    exact cut.others r (.inl found) (named.trans same)
  have spliced := cutApply cut made todo bytes
  have step := applyAt (p := moved (deltaSum (madeEdits made before)) p) left others (Prod.ext spliced.1 rfl)
  change now.apply p.id target = _ at step
  rw [shiftAfterCut cut order, (cutExact cut).2] at step
  refine ⟨_, _, step, ?_, ?_⟩
  · rw [split]
  · rw [split]
    exact spliced.2

theorem reachedCongr {pristine : Bytes} {set now : EditSet} {made other : List Span} {target : Stream}
    (same : ∀ id, id ∈ made ↔ id ∈ other) (state : Reached pristine set made now target) :
    Reached pristine set other now target := by
  have left : ∀ (pending : List Pending) (delta : Int), remaining made delta pending = remaining other delta pending := by
    intro pending
    induction pending with
    | nil => exact fun _ => rfl
    | cons p rest ih =>
      intro delta
      simp only [remaining, same, ih]
  have edits : madeEdits made set.pending = madeEdits other set.pending := by
    simp only [madeEdits, same]
  exact ⟨state.left.trans (left _ _), state.bytes.trans (by rw [edits])⟩

theorem applyIdsReached {pristine : Bytes} {set now : EditSet} {made order : List Span} {target : Stream}
    (ready : Ready pristine set) (state : Reached pristine set made now target) (known : ∀ id ∈ order, id ∈ set.ids)
    (fresh : (made ++ order).Nodup) :
    ∃ next reached, Worksite.applyIds now target order = .made () next reached ∧
      Reached pristine set (made ++ order) next reached := by
  induction order generalizing made now target with
  | nil => exact ⟨now, target, rfl, by simpa using state⟩
  | cons id rest ih =>
    obtain ⟨p, found, rfl⟩ := List.mem_map.mp (known id List.mem_cons_self)
    have todo : p.id ∉ made := by
      intro mem
      exact (List.nodup_append.mp fresh).2.2 p.id mem p.id List.mem_cons_self rfl
    obtain ⟨middle, halfway, ok, step⟩ := applyReached ready state found todo
    have state' : Reached pristine set (made ++ [p.id]) _ _ := reachedCongr (by simp [or_comm]) step
    obtain ⟨next, reached, run, final⟩ :=
      ih state' (fun x mem => known x (List.mem_cons_of_mem p.id mem)) (by simpa using fresh)
    refine ⟨next, reached, ?_, by simpa using final⟩
    simp only [Worksite.applyIds, ok, run]

theorem reachedStart {pristine : Bytes} {set : EditSet} {target : Stream} (bytes : target.bytes = pristine) :
    Reached pristine set [] set target := by
  refine ⟨(remainingNone _).symm, ?_⟩
  rw [bytes, madeEdits, List.filter_eq_nil_iff.mpr (by simp)]
  rfl

theorem reachedAll {pristine : Bytes} {set now : EditSet} {made : List Span} {target : Stream}
    (state : Reached pristine set made now target) (all : ∀ id ∈ set.ids, id ∈ made) :
    now.pending = [] ∧ target.bytes = Edit.onePassFrom 0 pristine set.edits := by
  have left : now.pending.map Pending.id = [] := by
    rw [state.left, remainingIds]
    refine List.filter_eq_nil_iff.mpr fun id mem => ?_
    simpa using all id mem
  have every : madeEdits made set.pending = set.edits := by
    rw [madeEdits, List.filter_eq_self.mpr]
    · rfl
    · intro p mem
      simpa using all p.id (List.mem_map_of_mem mem)
  exact ⟨List.map_eq_nil_iff.mp left, state.bytes.trans (by rw [every])⟩

theorem beforeFilter {pristine : Bytes} {set : EditSet} (ready : Ready pristine set) {before after : List Pending}
    {p : Pending} (split : set.pending = before ++ p :: after) (made : List Span) :
    madeEdits made before = set.edits.filter fun e => e.span ∈ made ∧ e.span < p.id := by
  have ascending := ready.ascending
  have named := ready.named
  rw [ids, split, List.map_append, List.map_cons, List.pairwise_append] at ascending
  rw [split] at named
  obtain ⟨_, above, below⟩ := ascending
  have later := (List.pairwise_cons.mp above).1
  rw [edits, split, madeFilter fun q mem => named q (List.mem_append_left _ mem), List.map_append,
    List.filter_append, List.map_cons]
  have nothing : (p.edit :: after.map Pending.edit).filter (fun e => e.span ∈ made ∧ e.span < p.id) = [] := by
    refine List.filter_eq_nil_iff.mpr ?_
    intro e mem
    rw [← List.map_cons] at mem
    obtain ⟨q, here, rfl⟩ := List.mem_map.mp mem
    rw [← named q (List.mem_append_right _ here)]
    simp only [decide_eq_true_eq, not_and]
    intro _
    rcases List.mem_cons.mp here with rfl | here
    · exact Ordered.ltIrrefl _
    · exact Ordered.notLtOfLt (later q.id (List.mem_map_of_mem here))
  rw [nothing, List.append_nil]
  refine List.filter_congr ?_
  intro e mem
  obtain ⟨q, here, rfl⟩ := List.mem_map.mp mem
  have less := below q.id (List.mem_map_of_mem here) p.id List.mem_cons_self
  rw [← named q (List.mem_append_left _ here)]
  simp only [less, and_true]

theorem anyOrderIsOnePass {original : Bytes} {edits : List Edit} {set : EditSet} {position : Nat} {order : List Span}
    (accepted : ofEdits edits = .ok set) (inside : ∀ e ∈ edits, e.span.start + e.span.size ≤ original.length)
    (room : original.length + contentSize edits < 2 ^ 63) (distinct : order.Nodup)
    (known : ∀ id ∈ order, id ∈ set.ids) :
    ∃ now target, Worksite.applyIds set ⟨original, position⟩ order = .made () now target ∧
      target.bytes = Edit.onePass original (edits.filter fun e => e.span ∈ order) ∧
      now.ids = set.ids.filter (· ∉ order) ∧ now.ids.Pairwise (· < ·) ∧
      ∀ p ∈ now.pending,
        (∃ e ∈ edits, e.isNoop = false ∧ e.span = p.id ∧ e.content = p.edit.content) ∧
        p.edit.span.size = p.id.size ∧
        p.edit.span.start = p.id.start + deltaSum (edits.filter fun e => e.span ∈ order ∧ e.span < p.id) ∧
        (target.bytes.drop p.edit.span.start).take p.edit.span.size = (original.drop p.id.start).take p.id.size ∧
        (now.apply p.id target).result = .ok (p.edit.content.length - p.edit.span.size) := by
  have ready : Ready original set := by
    refine ofEditsReady accepted (fun e mem => Nat.le_trans (Nat.min_le_left _ _) (inside e mem)) ?_
    exact Nat.lt_of_le_of_lt (Nat.add_le_add_left (contentSizeAccepted accepted) _) room
  have start : Reached original set [] set ⟨original, position⟩ := reachedStart rfl
  obtain ⟨now, target, run, state⟩ := applyIdsReached ready start known distinct
  rw [List.nil_append] at state
  have left : now.ids = set.ids.filter (· ∉ order) := by
    rw [ids, state.left, remainingIds]
    rfl
  refine ⟨now, target, run, ?_, left, ?_, ?_⟩
  · rw [state.bytes, onePassAccepted accepted, madeFilter ready.named]
    rfl
  · rw [left]
    exact ready.ascending.filter _
  · intro q mem
    rw [state.left] at mem
    obtain ⟨before, p, after, split, todo, rfl⟩ := remainingMem mem
    rw [Int.zero_add]
    have cut := readyCut ready split
    have bytes := state.bytes
    rw [split] at bytes
    have found : p ∈ set.pending := by
      rw [split]
      exact List.mem_append_right _ List.mem_cons_self
    have name := ready.named p found
    have given := arrangeNamed ((ofEditsPending accepted).1 ▸ found)
    have length := cutHeadLength cut order
    have place := (cutMoved cut order).1
    have sums : deltaSum (madeEdits order before) = deltaSum (edits.filter fun e => e.span ∈ order ∧ e.span < p.id) := by
      rw [deltaSumAccepted accepted, beforeFilter ready split]
    have covered := cutCovered cut order todo bytes
    have named : (moved (deltaSum (madeEdits order before)) p).id = p.edit.span := name
    obtain ⟨next, reached, made, _⟩ := applyReached ready state found todo
    refine ⟨⟨p.edit, given.2.1, given.2.2, name.symm, rfl⟩, ?_, ?_, ?_, congrArg Step.result made⟩
    · rw [named]
      rfl
    · rw [place, length, named, ← name, sums]
    · rw [named]
      exact covered

theorem touchingEditsBackwards :
    ∃ set now target,
      ofEdits [.ofNats 2 2 [99, 100], .ofNats 4 0 [62], .ofNats 2 0 [60]] = .ok set ∧
      Worksite.applyIds set ⟨[97, 98, 67, 68, 101, 102], 3⟩ [⟨4, 0⟩, ⟨2, 0⟩] = .made () now target ∧
      target.bytes = [97, 98, 60, 67, 68, 62, 101, 102] ∧ now.edits = [.ofNats 3 2 [99, 100]] := by
  have accepted : ofEdits [.ofNats 2 2 [99, 100], .ofNats 4 0 [62], .ofNats 2 0 [60]] =
      .ok ⟨[⟨⟨2, 0⟩, .ofNats 2 0 [60]⟩, ⟨⟨2, 2⟩, .ofNats 2 2 [99, 100]⟩, ⟨⟨4, 0⟩, .ofNats 4 0 [62]⟩]⟩ := by rfl
  have run := @anyOrderIsOnePass [97, 98, 67, 68, 101, 102] _ _ 3 [⟨4, 0⟩, ⟨2, 0⟩] accepted (by decide) (by decide)
    (by decide) (by decide)
  obtain ⟨now, target, run, bytes, -⟩ := run
  refine ⟨_, now, target, accepted, run, bytes.trans (by decide), ?_⟩
  have left : some now = (Worksite.applyIds _ _ _).set? := congrArg Step.set? run.symm
  cases left.trans (by decide : _ = some ⟨[⟨⟨2, 2⟩, .ofNats 3 2 [99, 100]⟩]⟩)
  rfl

end KeepBlame.EditSet
