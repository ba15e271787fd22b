import KeepBlame.Proofs.Calls

/-! When a call is refused. Edits that do not run past the last position stay apart in their exact ends, whatever others
do to the target; so none is ever pushed below the first position, and a call that cannot be made changes nothing. -/
namespace KeepBlame.EditSet

def Spaced (a b : Pending) : Prop := a.id < b.id ∧ a.edit.span.start + a.edit.span.size ≤ b.edit.span.start

theorem spacedBefore {a b : Pending} (spaced : Spaced a b) : Before a b :=
  ⟨spaced.1, Nat.le_trans (Nat.min_le_left _ _) spaced.2⟩

theorem spacedFloor {p q : Pending} (spaced : Spaced p q) :
    p.edit.span.start ≤ q.edit.span.start + p.edit.delta := by
  have apart := spaced.2
  simp only [Edit.delta]
  omega

theorem spacedMoved {before after : List Pending} {p : Pending} (spaced : (before ++ p :: after).Pairwise Spaced)
    (fits : ∀ q ∈ after, Fits p.edit.delta q) : (before ++ after.map (moved p.edit.delta)).Pairwise Spaced := by
  obtain ⟨left, tail, cross⟩ := List.pairwise_append.mp spaced
  obtain ⟨above, right⟩ := List.pairwise_cons.mp tail
  have place : ∀ q ∈ after, ((moved p.edit.delta q).edit.span.start : Int) = q.edit.span.start + p.edit.delta :=
    fun q mem => movedStart (fits q mem).1 (fits q mem).2
  refine List.pairwise_append.mpr ⟨left, List.pairwise_map.mpr ?_, ?_⟩
  · refine right.imp_of_mem ?_
    intro a b first second apart
    have size : (moved p.edit.delta a).edit.span.size = a.edit.span.size := rfl
    have start := place a first
    have next := place b second
    have exact := apart.2
    exact ⟨apart.1, by omega⟩
  · -- What stands before the edit ends where it starts, and no later one comes back further than that.
    intro a early m late
    obtain ⟨b, mem, rfl⟩ := List.mem_map.mp late
    have next := place b mem
    have exact := (cross a early p List.mem_cons_self).2
    have floor := spacedFloor (above b mem)
    exact ⟨(cross a early b (List.mem_cons_of_mem p mem)).1, by omega⟩

theorem callsSpaced {set : EditSet} {calls : List (Span × Stream)} (spaced : set.pending.Pairwise Spaced)
    (fine : ∀ r ∈ (set.callAll calls).1, ∀ id delta, r ≠ .error (.rebase id delta)) :
    ∃ now, (set.callAll calls).2 = some now ∧ now.pending.Pairwise Spaced ∧
      ∀ p ∈ now.pending, ∃ e ∈ set.edits, p.edit.content = e.content := by
  induction calls generalizing set with
  | nil => exact ⟨set, rfl, spaced, fun p mem => ⟨p.edit, List.mem_map_of_mem mem, rfl⟩⟩
  | cons call rest ih =>
    obtain ⟨id, target⟩ := call
    have step := applied (spaced.imp spacedBefore) id target
    simp only [callAll] at fine ⊢
    generalize set.apply id target = done at fine step ⊢
    cases step with
    | unknown | outside => exact ih spaced fun r mem => fine r (List.mem_cons_of_mem _ mem)
    | stuck => exact absurd rfl (fine _ List.mem_cons_self _ _)
    | outOfRow split named inside fits row =>
      exact absurd ((spacedMoved (split ▸ spaced) fits).imp fun pair => (spacedBefore pair).2) row
    | @made before after p split named inside fits row =>
      obtain ⟨now, left, final, contents⟩ :=
        ih (spacedMoved (split ▸ spaced) fits) fun r mem => fine r (List.mem_cons_of_mem _ mem)
      refine ⟨now, left, final, fun q mem => ?_⟩
      obtain ⟨e, held, same⟩ := contents q mem
      obtain ⟨r, found, rfl⟩ := List.mem_map.mp held
      rcases List.mem_append.mp found with early | late
      · exact ⟨r.edit, List.mem_map_of_mem (split ▸ List.mem_append_left _ early), same⟩
      · obtain ⟨s, behind, rfl⟩ := List.mem_map.mp late
        exact ⟨s.edit, List.mem_map_of_mem (split ▸ List.mem_append_right _ (List.mem_cons_of_mem p behind)), same⟩

theorem getNamed {set : EditSet} (ordered : set.pending.Pairwise Before) {p : Pending} (mem : p ∈ set.pending) :
    set.get? p.id = some p.edit := by
  obtain ⟨before, after, split⟩ := List.append_of_mem mem
  have others := cleftOthers (cleft (split ▸ ordered))
  have missed : before.find? (·.id == p.id) = none :=
    List.find?_eq_none.mpr fun q early => by simpa using others q early
  simp [get?, split, missed]

theorem getSome {set : EditSet} {id : Span} {e : Edit} (found : set.get? id = some e) :
    ∃ p ∈ set.pending, p.id = id ∧ p.edit = e := by
  obtain ⟨p, here, rfl⟩ := Option.map_eq_some_iff.mp found
  exact ⟨p, List.mem_of_find?_eq_some here, by simpa using List.find?_some here, rfl⟩

theorem acceptedSpaced {edits : List Edit} {set : EditSet} (accepted : ofEdits edits = .ok set)
    (whole : ∀ e ∈ set.edits, e.span.start + e.span.size < 2 ^ 64) : set.pending.Pairwise Spaced := by
  refine (acceptedTracked accepted).imp_of_mem ?_
  rintro a b left _ ⟨order, _⟩
  have short := whole a.edit (List.mem_map_of_mem left)
  have stop := order.2
  rw [Span.stopExact (by simp only [Span.limit]; omega)] at stop
  exact ⟨order.1, stop⟩

theorem behind {before after : List Pending} {p q : Pending} (cut : Cleft before p after)
    (mem : q ∈ before ++ p :: after) (later : p.id < q.id) : q ∈ after := by
  rcases List.mem_append.mp mem with early | rest
  · exact absurd later (Ordered.notLtOfLt (cut.below q early).1)
  · rcases List.mem_cons.mp rest with rfl | late
    · exact absurd later (Ordered.ltIrrefl _)
    · exact late

theorem ahead {before after : List Pending} {p q : Pending} (cut : Cleft before p after)
    (mem : q ∈ before ++ p :: after) (sooner : q.id < p.id) : q ∈ before := by
  rcases List.mem_append.mp mem with early | rest
  · exact early
  · rcases List.mem_cons.mp rest with rfl | late
    · exact absurd sooner (Ordered.ltIrrefl _)
    · exact absurd sooner (Ordered.notLtOfLt (cut.above q late).1)

def Barred (now : EditSet) (id i : Span) (delta : Int) : Prop :=
  ∃ q ∈ now.pending, id < q.id ∧ q.id = i ∧ 2 ^ 64 ≤ q.edit.span.start + delta ∧
    ∀ r ∈ now.pending, id < r.id → r.id < i → r.edit.span.start + delta < 2 ^ 64

section Refused
variable {now : EditSet} (spaced : now.pending.Pairwise Spaced) (id : Span) (target : Stream)
include spaced

theorem unknownIff (i : Span) : (now.apply id target).result = .error (.unknownEdit i) ↔ i = id ∧ id ∉ now.ids := by
  constructor
  · intro refused
    have step := applied (spaced.imp spacedBefore) id target
    generalize now.apply id target = done at refused step
    cases step with
    | outside | stuck | outOfRow | made => cases refused
    | unknown absent =>
      cases refused
      exact ⟨rfl, absent⟩
  · rintro ⟨rfl, absent⟩
    rw [applyUnknown absent]
    rfl

theorem outsideIff (span : Span) (size : Nat) :
    (now.apply id target).result = .error (.outOfBounds span size) ↔
      ∃ e, now.get? id = some e ∧ span = e.span ∧ size = target.size ∧ target.size < e.span.stop := by
  have ordered := spaced.imp spacedBefore
  constructor
  · intro refused
    have step := applied ordered id target
    generalize now.apply id target = done at refused step
    cases step with
    | unknown | stuck | outOfRow | made => cases refused
    | @outside before after p split named beyond =>
      cases refused
      have held : p ∈ now.pending := split ▸ List.mem_append_right _ List.mem_cons_self
      exact ⟨p.edit, named ▸ getNamed ordered held, rfl, rfl, beyond⟩
  · rintro ⟨e, found, rfl, rfl, beyond⟩
    obtain ⟨p, held, rfl, rfl⟩ := getSome found
    obtain ⟨before, after, split⟩ := List.append_of_mem held
    rw [applyOutside split (cleftOthers (cleft (split ▸ ordered))) beyond]
    rfl

theorem rebaseIff (i : Span) (delta : Int) :
    (now.apply id target).result = .error (.rebase i delta) ↔
      ∃ e, now.get? id = some e ∧ e.span.stop ≤ target.size ∧ delta = e.delta ∧ 0 < delta ∧ Barred now id i delta := by
  have ordered := spaced.imp spacedBefore
  have limit : (Span.limit : Int) = 2 ^ 64 - 1 := by decide
  constructor
  · intro refused
    have step := applied ordered id target
    generalize now.apply id target = done at refused step
    cases step with
    | unknown | outside | outOfRow | made => cases refused
    | @stuck before early late p q split named inside fits stuck =>
      cases refused
      have held : p ∈ now.pending := split ▸ List.mem_append_right _ List.mem_cons_self
      have cut := cleft (split ▸ ordered)
      have middle : q ∈ early ++ q :: late := List.mem_append_right _ List.mem_cons_self
      have floor := spacedFloor ((List.pairwise_cons.mp (List.pairwise_append.mp (split ▸ spaced)).2.1).1 q middle)
      have start := q.edit.span.startLeLimit
      simp only [Fits] at stuck
      refine ⟨p.edit, named ▸ getNamed ordered held, inside, rfl, by omega, q, ?_, ?_, rfl, by omega, ?_⟩
      · rw [split]
        exact List.mem_append_right _ (List.mem_cons_of_mem p middle)
      · exact named ▸ (cut.above q middle).1
      · intro r mem later sooner
        rw [split] at mem
        have between := ahead (cleft cut.right) (behind cut mem (named ▸ later)) sooner
        have most := (fits r between).2
        omega
  · rintro ⟨e, found, inside, rfl, grows, q, held, later, rfl, barred, others⟩
    obtain ⟨p, here, rfl, rfl⟩ := getSome found
    obtain ⟨before, after, split⟩ := List.append_of_mem here
    have cut := cleft (split ▸ ordered)
    obtain ⟨early, late, rfl⟩ := List.append_of_mem (behind cut (split ▸ held) later)
    have fits : ∀ r ∈ early, Fits p.edit.delta r := by
      intro r mem
      have above := (cut.above r (List.mem_append_left _ mem)).1
      have listed : r ∈ now.pending :=
        split ▸ List.mem_append_right _ (List.mem_cons_of_mem p (List.mem_append_left _ mem))
      have low := others r listed above ((cleft cut.right).below r mem).1
      simp only [Fits]
      omega
    have stuck : ¬ Fits p.edit.delta q := by
      simp only [Fits]
      omega
    rw [applyStuck split (cleftOthers cut) inside rfl fits stuck]
    rfl

theorem answered : (∃ delta, (now.apply id target).result = .ok delta) ∨
    (∃ i, (now.apply id target).result = .error (.unknownEdit i)) ∨
    (∃ span size, (now.apply id target).result = .error (.outOfBounds span size)) ∨
    ∃ i delta, (now.apply id target).result = .error (.rebase i delta) := by
  have step := applied (spaced.imp spacedBefore) id target
  generalize now.apply id target = done at step
  cases step with
  | unknown => exact .inr (.inl ⟨_, rfl⟩)
  | outside => exact .inr (.inr (.inl ⟨_, _, rfl⟩))
  | stuck => exact .inr (.inr (.inr ⟨_, _, rfl⟩))
  | outOfRow split named inside fits row =>
    exact absurd ((spacedMoved (split ▸ spaced) fits).imp fun pair => (spacedBefore pair).2) row
  | made => exact .inl ⟨_, rfl⟩

theorem refusedSame (refused : (∃ i, (now.apply id target).result = .error (.unknownEdit i)) ∨
    ∃ span size, (now.apply id target).result = .error (.outOfBounds span size)) :
    (now.apply id target).set? = some now ∧ (now.apply id target).target.bytes = target.bytes := by
  have step := applied (spaced.imp spacedBefore) id target
  generalize now.apply id target = done at refused step
  cases step with
  | unknown | outside => exact ⟨rfl, rfl⟩
  | stuck | outOfRow | made => rcases refused with ⟨_, named⟩ | ⟨_, _, named⟩ <;> cases named

end Refused

theorem refusedExactly {edits : List Edit} {set : EditSet} {calls : List (Span × Stream)}
    (accepted : ofEdits edits = .ok set) (whole : ∀ e ∈ set.edits, e.span.start + e.span.size < 2 ^ 64)
    (contents : ∀ e ∈ set.edits, e.content.length < 2 ^ 63)
    (fine : ∀ r ∈ (set.callAll calls).1, ∀ id delta, r ≠ .error (.rebase id delta))
    (id : Span) (target : Stream) (size : target.size < 2 ^ 63) :
    ∃ now, (set.callAll calls).2 = some now ∧
      let step := now.apply id target
      (∀ i, step.result = .error (.unknownEdit i) ↔ i = id ∧ id ∉ now.ids) ∧
      (∀ span length, step.result = .error (.outOfBounds span length) ↔
        ∃ e, now.get? id = some e ∧ span = e.span ∧ length = target.size ∧ target.size < e.span.stop) ∧
      ((∃ i, step.result = .error (.unknownEdit i)) ∨ (∃ span length, step.result = .error (.outOfBounds span length)) →
        step.set? = some now ∧ step.target.bytes = target.bytes) ∧
      (∀ i delta, step.result = .error (.rebase i delta) ↔
        ∃ e, now.get? id = some e ∧ e.span.stop ≤ target.size ∧ delta = e.content.length - e.span.size ∧ 0 < delta ∧
          Barred now id i delta) ∧
      ((∃ delta, step.result = .ok delta) ∨ (∃ i, step.result = .error (.unknownEdit i)) ∨
        (∃ span length, step.result = .error (.outOfBounds span length)) ∨
        ∃ i delta, step.result = .error (.rebase i delta)) := by
  obtain ⟨now, left, spaced, kept⟩ := callsSpaced (acceptedSpaced accepted whole) fine
  refine ⟨now, left, unknownIff spaced id target, outsideIff spaced id target, refusedSame spaced id target, ?_,
    answered spaced id target⟩
  intro i delta
  rw [rebaseIff spaced id target]
  refine exists_congr fun e => and_congr_right fun found => and_congr_right fun inside => ?_
  -- In a target of this size neither of the two lengths is cut short, so the edit moves the later ones by the difference.
  obtain ⟨p, held, _, rfl⟩ := getSome found
  obtain ⟨origin, first, same⟩ := kept p held
  have short : p.edit.content.length < 2 ^ 63 := same ▸ contents origin first
  rw [(Edit.deltaExact (e := p.edit) (by simp only [Edit.sizeLimit]; omega)
    (by simp only [Edit.sizeLimit]; omega)).2]

def strayCalls : List (Span × Stream) :=
  [(⟨3, 1⟩, ⟨[97, 98, 99, 100], 0⟩), (⟨3, 1⟩, ⟨[97, 98, 99], 0⟩), (⟨0, 1⟩, ⟨[], 0⟩)]

def lastEdits : List Edit := [⟨⟨0, 1⟩, [120, 121, 122]⟩, ⟨⟨3, 1⟩, []⟩, ⟨⟨18446744073709551615, 0⟩, [119]⟩]

theorem lastEditsBarred :
    ∃ set now, ofEdits lastEdits = .ok set ∧
      set.callAll strayCalls =
        ([.ok (-1), .error (.unknownEdit ⟨3, 1⟩), .error (.outOfBounds ⟨0, 1⟩ 0)], some now) ∧
      (now.apply ⟨0, 1⟩ ⟨[97, 98, 99], 0⟩).result = .error (.rebase ⟨18446744073709551615, 0⟩ 2) := by
  have accepted : ofEdits lastEdits = .ok ⟨lastEdits.map fun e => ⟨e.span, e⟩⟩ := by decide
  have called : callAll ⟨lastEdits.map fun e => ⟨e.span, e⟩⟩ strayCalls =
      ([.ok (-1), .error (.unknownEdit ⟨3, 1⟩), .error (.outOfBounds ⟨0, 1⟩ 0)],
        some ⟨[⟨⟨0, 1⟩, ⟨⟨0, 1⟩, [120, 121, 122]⟩⟩,
          ⟨⟨18446744073709551615, 0⟩, ⟨⟨18446744073709551614, 0⟩, [119]⟩⟩]⟩) := by decide
  obtain ⟨now, left, _, _, _, rebase, _⟩ := @refusedExactly lastEdits _ strayCalls accepted (by decide) (by decide)
    (by simp [called]) ⟨0, 1⟩ ⟨[97, 98, 99], 0⟩ (by decide)
  rw [called] at left
  cases left
  refine ⟨_, _, accepted, called, (rebase ⟨18446744073709551615, 0⟩ 2).mpr ?_⟩
  refine ⟨⟨⟨0, 1⟩, [120, 121, 122]⟩, by decide, by decide, by decide, by decide, ?_⟩
  refine ⟨_, List.mem_cons_of_mem _ List.mem_cons_self, by decide, rfl, by decide, ?_⟩
  decide

end KeepBlame.EditSet
